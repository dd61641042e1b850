import Mathlib.Data.List.Induction
import SmartCore.Buckets.BucketList

/-!
# The bucket list refines the ledger map

Looking up a key in the layers of the list, from the newest to the oldest, gives what applying the
batches in order gives, although merges leave out entries and are committed long after they were
prepared.

Consider a spill of level `j`. Before it the layers around it are

  `… curr j = A, snap j = B, curr (j+1) = C, snap (j+1) = D, …`

and after it `… ∅, A, M, D, …`, where `M` was prepared at the last spill. The invariant (`NextOk`)
is that `M` is the merge of `B` into `C` as they still are, and that every key it left out as
shadowed is mentioned before `B`. So nothing changes in any layered lookup (`above_spill`). `C` is
not what it was when the merge was prepared if level `j+1` has spilled in between; but that happens
at the same ledger only, and then the merge was prepared without it.

Main result: `view_runBatches`, over all histories and all times at which merges complete.
-/

namespace SmartCore.Buckets

variable {K E : Type} [Keyed E K] [LinearOrder K]

/-! ## When levels spill -/

/-- Half the size of a level. -/
def half (level : ℕ) : ℕ := 2 ^ (2 * level + 1)

theorem half_pos (level : ℕ) : 0 < half level := Nat.two_pow_pos _

theorem half_dvd_half (level : ℕ) : half level ∣ half (level + 1) :=
  Nat.pow_dvd_pow 2 (by omega)

theorem and_not_eq_self_iff (v x : UInt32) : v &&& ~~~x = v ↔ v &&& x = 0 := by
  simp only [← UInt32.toBitVec_inj, UInt32.toBitVec_and, UInt32.toBitVec_not, UInt32.toBitVec_zero]
  generalize v.toBitVec = a
  generalize x.toBitVec = b
  constructor
  · intro h
    rw [← h]
    ext i hi
    simp
  · intro h
    ext i hi
    have hi' := congrArg (fun y : BitVec 32 => y.getLsbD i) h
    simp only [BitVec.getLsbD_and, BitVec.getLsbD_zero] at hi'
    rw [BitVec.getElem_and, BitVec.getElem_not, ← BitVec.getLsbD_eq_getElem,
      ← BitVec.getLsbD_eq_getElem]
    cases ha : a.getLsbD i <;> simp_all

/-- A ledger is its own mask iff it is a multiple. -/
theorem eq_mask_iff {v m : UInt32} {k : ℕ} (hm : m.toNat = 2 ^ k) :
    v = mask v m ↔ 2 ^ k ∣ v.toNat := by
  have hsub : (m - 1).toNat = 2 ^ k - 1 := by
    rw [UInt32.toNat_sub_of_le]
    · rw [hm]; rfl
    · rw [UInt32.le_iff_toNat_le, hm]
      exact Nat.one_le_two_pow
  rw [eq_comm, mask, and_not_eq_self_iff, ← UInt32.toNat_inj, UInt32.toNat_and, hsub,
    Nat.and_two_pow_sub_one_eq_mod, Nat.dvd_iff_mod_eq_zero]
  rfl

theorem toNat_levelSize {level : ℕ} (h : level ≤ 10) :
    (levelSize level).toNat = 2 ^ (2 * level + 2) := by
  revert level
  decide

theorem toNat_levelHalf {level : ℕ} (h : level ≤ 10) : (levelHalf level).toNat = half level := by
  revert level
  decide

/-- The last multiple before a multiple. -/
theorem floor_pred {L h : ℕ} (hL : 0 < L) (hdvd : h ∣ L) : (L - 1) / h * h + h = L := by
  obtain ⟨c, rfl⟩ := hdvd
  have hh : 0 < h := Nat.pos_of_mul_pos_right hL
  obtain ⟨c, rfl⟩ : ∃ c', c = c' + 1 := ⟨c - 1, by have := Nat.pos_of_mul_pos_left hL; omega⟩
  have hdiv : (h * (c + 1) - 1) / h = c := by
    rw [Nat.div_eq_iff hh]
    constructor <;> rw [Nat.mul_comm c, Nat.mul_add] <;> omega
  rw [hdiv, Nat.mul_add, Nat.mul_comm c, Nat.mul_one]

/-- The level spills at ledger `L`. -/
def Spills (L level : ℕ) : Prop := level ≠ 10 ∧ half level ∣ L

instance (L level : ℕ) : Decidable (Spills L level) := inferInstanceAs (Decidable (_ ∧ _))

theorem levelShouldSpill_iff {ledger : UInt32} {level : ℕ} (h : level ≤ 10) :
    levelShouldSpill ledger level = true ↔ Spills ledger.toNat level := by
  unfold levelShouldSpill kNumLevels Spills
  have hor : ledger = mask ledger (levelHalf level) ∨ ledger = mask ledger (levelSize level) ↔
      half level ∣ ledger.toNat := by
    rw [eq_mask_iff (toNat_levelHalf h), eq_mask_iff (toNat_levelSize h)]
    exact ⟨fun hd => hd.elim id fun hd => Nat.dvd_trans (Nat.pow_dvd_pow 2 (by omega)) hd, Or.inl⟩
  split_ifs with h10
  · simp [h10]
  · simp [h10, hor]

/-- The next change of a level is seen through the overflow of the ledger number. -/
theorem levelShouldSpill_next {ledger : UInt32} {j : ℕ} (h : j < 10) :
    levelShouldSpill (ledger + levelHalf j) (j + 1) = true ↔
      Spills (ledger.toNat + half j) (j + 1) := by
  rw [levelShouldSpill_iff (by omega), UInt32.toNat_add, toNat_levelHalf (by omega)]
  have hdvd : half (j + 1) ∣ 2 ^ 32 := Nat.pow_dvd_pow 2 (by omega)
  unfold Spills
  rw [Nat.dvd_mod_iff hdvd]

/-- A level spills only when the one before it does. -/
theorem Spills.pred {L j : ℕ} (h : Spills L (j + 1)) : half j ∣ L :=
  Nat.dvd_trans (half_dvd_half j) h.2

/-! ## Layers -/

namespace BucketList

variable (bl : BucketList E K)

def curr (i : ℕ) : Bucket E K := (bl.mLevels i).mCurr

def snap (i : ℕ) : Bucket E K := (bl.mLevels i).mSnap

/-- The first mention of a key in the levels below `n`. -/
def firstBelow : ℕ → K → Option (BucketEntry E K)
  | 0, _ => none
  | n + 1, k => (firstBelow n k).or (((bl.curr n).find k).or ((bl.snap n).find k))

/-- The first mention of a key before the snapshot of level `j`. -/
def above (j : ℕ) (k : K) : Option (BucketEntry E K) :=
  (bl.firstBelow j k).or ((bl.curr j).find k)

variable {bl} {bl' : BucketList E K}

theorem firstBelow_succ (n : ℕ) (k : K) :
    bl.firstBelow (n + 1) k = (bl.above n k).or ((bl.snap n).find k) := by
  simp only [firstBelow, above, Option.or_assoc]

theorem above_succ (n : ℕ) (k : K) :
    bl.above (n + 1) k =
      (bl.above n k).or (((bl.snap n).find k).or ((bl.curr (n + 1)).find k)) := by
  rw [above, firstBelow_succ, Option.or_assoc]

theorem findSome?_levels (n : ℕ) (k : K) :
    ((List.range n).flatMap fun i => [bl.curr i, bl.snap i]).findSome? (fun b => b.find k) =
      bl.firstBelow n k := by
  induction n with
  | zero => rfl
  | succ n ih =>
    rw [List.range_succ, List.flatMap_append, List.findSome?_append, ih]
    cases h : (bl.curr n).find k <;> simp [firstBelow, h]

theorem view_eq (k : K) : bl.view k = (bl.firstBelow 11 k).bind BucketEntry.live? := by
  rw [← findSome?_levels]
  rfl

/-- Lists that agree below `n` agree on the first mention there. -/
theorem firstBelow_congr {n : ℕ} (h : ∀ i < n, bl'.mLevels i = bl.mLevels i) (k : K) :
    bl'.firstBelow n k = bl.firstBelow n k := by
  induction n with
  | zero => rfl
  | succ n ih =>
    simp only [firstBelow, curr, snap, h n (by omega), ih fun i hi => h i (by omega)]

/-- Lists that agree on the first mention below `n`, and from there on, agree. -/
theorem firstBelow_congr_from {n m : ℕ} (hnm : n ≤ m) {k : K}
    (hn : bl'.firstBelow n k = bl.firstBelow n k)
    (h : ∀ i, n ≤ i → i < m → bl'.mLevels i = bl.mLevels i) :
    bl'.firstBelow m k = bl.firstBelow m k := by
  induction m, hnm using Nat.le_induction with
  | base => exact hn
  | succ m hm ih =>
    simp only [firstBelow, curr, snap, h m hm (by omega), ih fun i hi hi' => h i hi (by omega)]

/-- A key in one of the first buckets is mentioned in the first levels. -/
theorem firstBelow_ne_none {n : ℕ} (hn : n ≤ kNumLevels) {b : Bucket E K}
    (hb : b ∈ bl.buckets.take (2 * n)) {k : K} (hk : HasKey b.entries k) :
    bl.firstBelow n k ≠ none := by
  have htake : bl.buckets.take (2 * n) = (List.range n).flatMap fun i => [bl.curr i, bl.snap i] := by
    obtain ⟨m, hm⟩ := Nat.exists_eq_add_of_le hn
    have hlen : ((List.range n).flatMap fun i => [bl.curr i, bl.snap i]).length = 2 * n := by
      simp [List.length_flatMap, Nat.mul_comm]
    rw [buckets, hm, List.range_add, List.flatMap_append]
    exact List.take_left' hlen
  rw [htake] at hb
  rw [← findSome?_levels]
  intro hnone
  rw [List.findSome?_eq_none_iff] at hnone
  exact Bucket.find_eq_none_iff.mp (hnone b hb) hk

end BucketList

/-! ## The invariant -/

/-- The merge into level `j + 1` is the one of the snapshot of level `j` into the current bucket of
level `j + 1`, or without it if that is to be snapshotted first. Before the first spill of level `j`
there is nothing to merge. -/
def NextOk (L : ℕ) (bl : BucketList E K) (j : ℕ) : Prop :=
  (L < half j ∧ (bl.mLevels (j + 1)).mNextCurr = .FB_CLEAR ∧ bl.snap j = {}) ∨
  (half j ≤ L ∧ ∃ shadows M,
    Bucket.merge (if Spills (L / half j * half j + half j) (j + 1) then {} else bl.curr (j + 1))
      (bl.snap j) shadows (decide (j + 1 < 10)) = some M ∧
    ((bl.mLevels (j + 1)).mNextCurr = .FB_LIVE_INPUTS
        (if Spills (L / half j * half j + half j) (j + 1) then {} else bl.curr (j + 1))
        (bl.snap j) shadows (decide (j + 1 < 10)) ∨
      (bl.mLevels (j + 1)).mNextCurr = .FB_LIVE_OUTPUT M) ∧
    ∀ b ∈ shadows, ∀ k, HasKey b.entries k → bl.above j k ≠ none)

/-- What holds of a list after ledger `L`. -/
structure Inv (L : ℕ) (bl : BucketList E K) : Prop where
  level : ∀ i, (bl.mLevels i).mLevel = i
  fresh : (bl.mLevels 0).mNextCurr = .FB_CLEAR
  last : bl.snap 10 = {}
  next : ∀ j < 10, NextOk L bl j

/-- The merge is complete by now, or is as it was. -/
def Completes (next next' : FutureBucket E K) : Prop :=
  next' = next ∨ ∃ M, next.output? = some M ∧ next' = .FB_LIVE_OUTPUT M

theorem output_of_merge {next : FutureBucket E K} {curr snap M : Bucket E K}
    {shadows : List (Bucket E K)} {keepDeadEntries : Bool}
    (hM : Bucket.merge curr snap shadows keepDeadEntries = some M)
    (h : next = .FB_LIVE_INPUTS curr snap shadows keepDeadEntries ∨ next = .FB_LIVE_OUTPUT M) :
    next.output? = some M := by
  rcases h with rfl | rfl
  · exact hM
  · rfl

/-- `NextOk` depends on a few buckets only. -/
theorem NextOk.congr {L j : ℕ} {bl bl' : BucketList E K} (h : NextOk L bl j)
    (hnext : Completes (bl.mLevels (j + 1)).mNextCurr (bl'.mLevels (j + 1)).mNextCurr)
    (hcurr : bl'.curr (j + 1) = bl.curr (j + 1)) (hsnap : bl'.snap j = bl.snap j)
    (habove : ∀ k, bl.above j k ≠ none → bl'.above j k ≠ none) : NextOk L bl' j := by
  rcases h with ⟨hL, hc, hs⟩ | ⟨hL, shadows, M, hM, hmerge, hsh⟩
  · rcases hnext with heq | ⟨M, hM, -⟩
    · exact Or.inl ⟨hL, heq.trans hc, hsnap.trans hs⟩
    · rw [hc] at hM
      cases hM
  · refine Or.inr ⟨hL, shadows, M, by rw [hcurr, hsnap]; exact hM, ?_,
      fun b hb k hk => habove k (hsh b hb k hk)⟩
    rw [hcurr, hsnap]
    rcases hnext with heq | ⟨M', hM', heq⟩
    · rw [heq]
      exact hmerge
    · have hMM : some M' = some M := hM'.symm.trans (output_of_merge hM hmerge)
      rw [heq, Option.some.inj hMM]
      exact Or.inr rfl

/-! ## One spill -/

theorem FutureBucket.isLive_of_output {fb : FutureBucket E K} {M : Bucket E K}
    (h : fb.output? = some M) : fb.isLive = true := by
  revert h
  cases fb <;> simp [FutureBucket.output?, FutureBucket.isLive]

theorem FutureBucket.resolve_output {fb : FutureBucket E K} {M : Bucket E K}
    (h : fb.output? = some M) : fb.resolve = .ok (M, .FB_LIVE_OUTPUT M) := by
  unfold FutureBucket.resolve
  rw [isLive_of_output h, h]
  rfl

theorem FutureBucket.resolve_none {fb : FutureBucket E K} (h : fb.output? = none) :
    ∃ e, fb.resolve = .error e := by
  unfold FutureBucket.resolve
  rw [h]
  cases fb.isLive
  · exact ⟨_, rfl⟩
  · exact ⟨_, rfl⟩

namespace BucketLevel

variable {level : BucketLevel E K}

theorem commit_clear (h : level.mNextCurr = .FB_CLEAR) :
    level.commit = .ok (level.setCurr level.mCurr) := by
  cases level
  simp only at h
  subst h
  rfl

theorem commit_output {M : Bucket E K} (h : level.mNextCurr.output? = some M) :
    level.commit = .ok (level.setCurr M) := by
  unfold commit
  rw [FutureBucket.isLive_of_output h, FutureBucket.resolve_output h]
  rfl

theorem prepare_eq (level : BucketLevel E K) (currLedger : UInt32) (snap : Bucket E K)
    (shadows : List (Bucket E K)) (h : level.mNextCurr.isMerging = false) :
    level.prepare currLedger snap shadows = .ok { level with
      mNextCurr := .FB_LIVE_INPUTS
        (if 0 < level.mLevel ∧
            levelShouldSpill (currLedger + levelHalf (level.mLevel - 1)) level.mLevel
          then {} else level.mCurr)
        snap shadows (decide (level.mLevel < kNumLevels - 1)) } := by
  unfold prepare
  rw [h]
  rfl

end BucketLevel

section Spill

variable {bl : BucketList E K} {j : ℕ} {M : Bucket E K}

/-- The list after level `j` has spilled, with `M` committed at the next level. -/
def spilled (bl : BucketList E K) (j : ℕ) (M : Bucket E K) (next : FutureBucket E K) :
    BucketList E K :=
  (bl.setLevel j { bl.mLevels j with mSnap := bl.curr j, mCurr := {} }).setLevel (j + 1)
    { bl.mLevels (j + 1) with mCurr := M, mNextCurr := next }

variable {next : FutureBucket E K}

theorem spilled_self : (spilled bl j M next).mLevels j =
    { bl.mLevels j with mSnap := bl.curr j, mCurr := {} } := by
  simp [spilled, BucketList.setLevel]

theorem spilled_succ : (spilled bl j M next).mLevels (j + 1) =
    { bl.mLevels (j + 1) with mCurr := M, mNextCurr := next } := by
  simp [spilled, BucketList.setLevel]

theorem spilled_ne {i : ℕ} (h : i ≠ j) (h' : i ≠ j + 1) :
    (spilled bl j M next).mLevels i = bl.mLevels i := by
  simp [spilled, BucketList.setLevel, h, h']

/-- The committed bucket, behind what comes before it, shows what the two buckets it was merged from
showed, or drops what is dead in the last level. -/
def Commits (bl : BucketList E K) (j : ℕ) (M : Bucket E K) : Prop :=
  ∀ k, if j + 1 < 10 then
      (bl.above j k).or (M.find k) =
        (bl.above j k).or (((bl.snap j).find k).or ((bl.curr (j + 1)).find k))
    else
      ((bl.above j k).or (M.find k)).bind BucketEntry.live? =
        ((bl.above j k).or (((bl.snap j).find k).or ((bl.curr (j + 1)).find k))).bind
          BucketEntry.live?

theorem commits_of_merge {shadows : List (Bucket E K)}
    (hM : Bucket.merge (bl.curr (j + 1)) (bl.snap j) shadows (decide (j + 1 < 10)) = some M)
    (hsh : ∀ b ∈ shadows, ∀ k, HasKey b.entries k → bl.above j k ≠ none) : Commits bl j M := by
  intro k
  rw [Bucket.find_merge hM k]
  cases habove : bl.above j k with
  | some e => split_ifs <;> simp
  | none =>
    -- nothing is shadowed here
    cases hor : ((bl.snap j).find k).or ((bl.curr (j + 1)).find k) with
    | none => split_ifs <;> simp
    | some e =>
      have hkey : e.key = k := by
        rcases Option.or_eq_some_iff.mp hor with h | ⟨-, h⟩ <;> exact Bucket.find_key h
      have hnot : ∀ b ∈ shadows, ¬ HasKey b.entries e.key := fun b hb hk =>
        hsh b hb k (hkey ▸ hk) habove
      split_ifs with hj
      · have hw : Written shadows (decide (j + 1 < 10)) e := ⟨Or.inl (by simpa using hj), hnot⟩
        rw [Option.filter_some_pos (by simpa using hw)]
      · cases e with
        | LIVEENTRY e =>
          have hw : Written shadows (decide (j + 1 < 10)) (.LIVEENTRY e) := ⟨Or.inr rfl, hnot⟩
          rw [Option.filter_some_pos (by simpa using hw)]
        | DEADENTRY k' =>
          have hw : ¬ Written shadows (decide (j + 1 < 10)) (.DEADENTRY k') := by
            rintro ⟨h | h, -⟩
            · exact hj (by simpa using h)
            · cases h
          rw [Option.filter_some_neg (by simpa using hw)]
          rfl

theorem commits_of_empty (h : bl.snap j = {}) : Commits bl j (bl.curr (j + 1)) := by
  intro k
  rw [h]
  split_ifs <;> simp

/-- Below level `j + 1` a spill shows what was above the snapshot. -/
theorem firstBelow_spilled (k : K) :
    (spilled bl j M next).firstBelow (j + 1) k = bl.above j k := by
  have hbelow : (spilled bl j M next).firstBelow j k = bl.firstBelow j k :=
    BucketList.firstBelow_congr (fun i hi => spilled_ne (by omega) (by omega)) k
  simp [BucketList.firstBelow, BucketList.curr, BucketList.snap, spilled_self, hbelow,
    BucketList.above]

theorem above_spilled_succ (k : K) :
    (spilled bl j M next).above (j + 1) k = (bl.above j k).or (M.find k) := by
  have hcurr : (spilled bl j M next).curr (j + 1) = M := by simp [BucketList.curr, spilled_succ]
  rw [BucketList.above, firstBelow_spilled, hcurr]

/-- **A spill does not change what is above a later snapshot.** -/
theorem above_spilled (hM : Commits bl j M) {n : ℕ} (hn : j + 1 ≤ n) (hn' : n < 10) (k : K) :
    (spilled bl j M next).above n k = bl.above n k := by
  have hM' := hM k
  rw [if_pos (by omega)] at hM'
  have hsucc : (spilled bl j M next).above (j + 1) k = bl.above (j + 1) k := by
    rw [above_spilled_succ, BucketList.above_succ]
    exact hM'
  rcases hn.eq_or_lt with rfl | hlt
  · exact hsucc
  · have hfirst : (spilled bl j M next).firstBelow (j + 2) k = bl.firstBelow (j + 2) k := by
      rw [BucketList.firstBelow_succ, BucketList.firstBelow_succ, hsucc]
      simp [BucketList.snap, spilled_succ]
    have hn'' := BucketList.firstBelow_congr_from (m := n) (by omega) hfirst
      fun i hi _ => spilled_ne (by omega) (by omega)
    simp only [BucketList.above, hn'', BucketList.curr]
    rw [spilled_ne (by omega) (by omega)]

/-- **A spill does not change the view.** -/
theorem view_spilled (hM : Commits bl j M) (hj : j < 10) (hlast : bl.snap 10 = {}) (k : K) :
    (spilled bl j M next).view k = bl.view k := by
  rw [BucketList.view_eq, BucketList.view_eq]
  by_cases h : j + 1 < 10
  · have hfirst : (spilled bl j M next).firstBelow (j + 2) k = bl.firstBelow (j + 2) k := by
      rw [BucketList.firstBelow_succ, BucketList.firstBelow_succ, above_spilled hM le_rfl h]
      simp [BucketList.snap, spilled_succ]
    rw [BucketList.firstBelow_congr_from (m := 11) (by omega) hfirst
      fun i hi _ => spilled_ne (by omega) (by omega)]
  · obtain rfl : j = 9 := by omega
    have hM' := hM k
    rw [if_neg h] at hM'
    have hsnap : (spilled bl 9 M next).snap 10 = {} := by
      simpa [BucketList.snap, spilled_succ] using hlast
    rw [BucketList.firstBelow_succ, BucketList.firstBelow_succ, hsnap, hlast, above_spilled_succ,
      BucketList.above_succ 9]
    simpa using hM'

/-- What a spill of level `j` does when the next level has `M` to commit. -/
theorem spill_eq {ledger : UInt32} {shadows : List (Bucket E K)} (hj : j < 10)
    (hlevel : (bl.mLevels (j + 1)).mLevel = j + 1)
    (hM : (bl.mLevels (j + 1)).mNextCurr = .FB_CLEAR ∧ bl.curr (j + 1) = M ∨
      (bl.mLevels (j + 1)).mNextCurr.output? = some M) :
    bl.spill ledger shadows (j + 1) = .ok (spilled bl j M (.FB_LIVE_INPUTS
      (if Spills (ledger.toNat + half j) (j + 1) then {} else M) (bl.curr j) shadows
      (decide (j + 1 < 10)))) := by
  have hsucc : ∀ level, (bl.setLevel j level).mLevels (j + 1) = bl.mLevels (j + 1) := fun level => by
    simp [BucketList.setLevel]
  have hcommit : (bl.mLevels (j + 1)).commit = .ok ((bl.mLevels (j + 1)).setCurr M) := by
    rcases hM with ⟨hclear, rfl⟩ | hout
    · exact BucketLevel.commit_clear hclear
    · exact BucketLevel.commit_output hout
  have hprepare : ((bl.mLevels (j + 1)).setCurr M).prepare ledger (bl.mLevels j).mCurr shadows =
      .ok { bl.mLevels (j + 1) with
        mCurr := M
        mNextCurr := .FB_LIVE_INPUTS (if Spills (ledger.toNat + half j) (j + 1) then {} else M)
          (bl.curr j) shadows (decide (j + 1 < 10)) } := by
    rw [BucketLevel.prepare_eq _ _ _ _ rfl]
    simp [BucketLevel.setCurr, hlevel, levelShouldSpill_next hj, kNumLevels, BucketList.curr]
  unfold BucketList.spill BucketLevel.snap
  simp only [Nat.add_sub_cancel, hsucc, hcommit]
  show (((bl.mLevels (j + 1)).setCurr M).prepare ledger (bl.mLevels j).mCurr shadows >>= fun _ => _) = _
  rw [hprepare]
  rfl

end Spill

/-! ## One ledger -/

/-- Amid the spills of ledger `L`: those of the levels from `n` on are done. -/
structure Mid (L : ℕ) (bl₀ bl : BucketList E K) (n : ℕ) : Prop where
  level : ∀ i, (bl.mLevels i).mLevel = i
  view : ∀ k, bl.view k = bl₀.view k
  last : bl.snap 10 = {}
  next : ∀ j, n ≤ j → j < 10 → NextOk L bl j
  below : ∀ i < n, bl.mLevels i = bl₀.mLevels i
  nextCurr : (bl.mLevels n).mNextCurr = (bl₀.mLevels n).mNextCurr
  curr : bl.curr n = if Spills L n then {} else bl₀.curr n

section Ledger

variable {L n : ℕ} {bl₀ bl : BucketList E K}

theorem Mid.start (h : Inv (L - 1) bl) : Mid L bl bl 10 where
  level := h.level
  view _ := rfl
  last := h.last
  next j hj hj' := by omega
  below _ _ := rfl
  nextCurr := rfl
  curr := by rw [if_neg fun hs => hs.1 rfl]

theorem Mid.snap_below (h : Mid L bl₀ bl (n + 1)) : bl.snap n = bl₀.snap n := by
  rw [BucketList.snap, h.below n (by omega)]
  rfl

theorem Mid.above_below (h : Mid L bl₀ bl (n + 1)) (k : K) : bl.above n k = bl₀.above n k := by
  rw [BucketList.above, BucketList.firstBelow_congr (fun i hi => h.below i (by omega)) k,
    BucketList.curr, h.below n (by omega)]
  rfl

/-- Between two spills the merge into a level stays what it is. -/
theorem Mid.keep (h : Mid L bl₀ bl (n + 1)) (h₀ : Inv (L - 1) bl₀) (hL : 0 < L) (hn : n < 10)
    (hspill : ¬ Spills L n) : Mid L bl₀ bl n where
  level := h.level
  view := h.view
  last := h.last
  next j hj hj' := by
    rcases hj.eq_or_lt with rfl | hlt
    · have hdvd : ¬ half n ∣ L := fun hd => hspill ⟨by omega, hd⟩
      have hdiv : (L - 1) / half n = L / half n := by
        obtain ⟨m, rfl⟩ : ∃ m, L = m + 1 := ⟨L - 1, by omega⟩
        rw [Nat.add_sub_cancel, Nat.succ_div_of_not_dvd hdvd]
      have hcurr : bl.curr (n + 1) = bl₀.curr (n + 1) := by
        rw [h.curr, if_neg fun hs => hdvd hs.pred]
      have hle : L - 1 < half n ↔ L < half n := by
        have : L ≠ half n := fun he => hdvd (he ▸ Nat.dvd_refl _)
        omega
      have h₀' : NextOk (L - 1) bl n := (h₀.next n hn).congr (Or.inl h.nextCurr) hcurr h.snap_below fun k hk => by rwa [h.above_below k]
      unfold NextOk at h₀' ⊢
      rwa [hdiv, hle, ← not_lt, hle, not_lt] at h₀'
    · exact h.next j hlt hj'
  below i hi := h.below i (by omega)
  nextCurr := by rw [h.below n (by omega)]
  curr := by rw [if_neg hspill, BucketList.curr, h.below n (by omega)]; rfl

/-- What a level has to commit when the level before it spills. -/
theorem Mid.commits (h : Mid L bl₀ bl (n + 1)) (h₀ : Inv (L - 1) bl₀) (hL : 0 < L) (hn : n < 10)
    (hspill : Spills L n) :
    ∃ M, Commits bl n M ∧
      ((bl.mLevels (n + 1)).mNextCurr = .FB_CLEAR ∧ bl.curr (n + 1) = M ∨
        (bl.mLevels (n + 1)).mNextCurr.output? = some M) := by
  rcases h₀.next n hn with ⟨-, hclear, hempty⟩ | ⟨-, shadows, M, hM, hmerge, hsh⟩
  · exact ⟨_, commits_of_empty (h.snap_below.trans hempty), Or.inl ⟨h.nextCurr.trans hclear, rfl⟩⟩
  · -- the merge was prepared for this ledger
    have hfloor := floor_pred hL hspill.2
    have hout : (bl₀.mLevels (n + 1)).mNextCurr.output? = some M := output_of_merge hM hmerge
    rw [hfloor, ← h.curr, ← h.snap_below] at hM
    exact ⟨M, commits_of_merge hM fun b hb k hk => by rw [h.above_below k]; exact hsh b hb k hk,
      Or.inr (by rw [h.nextCurr]; exact hout)⟩

/-- A spill keeps the invariants. -/
theorem Mid.spill {ledger : UInt32} (h : Mid ledger.toNat bl₀ bl (n + 1))
    (h₀ : Inv (ledger.toNat - 1) bl₀) (hL : 0 < ledger.toNat) (hn : n < 10)
    (hspill : Spills ledger.toNat n) :
    ∃ bl', bl.spill ledger (bl₀.buckets.take (2 * n)) (n + 1) = .ok bl' ∧
      Mid ledger.toNat bl₀ bl' n := by
  obtain ⟨M, hM, hcommit⟩ := h.commits h₀ hL hn hspill
  refine ⟨_, spill_eq hn (h.level (n + 1)) hcommit, ?_⟩
  generalize hnext : FutureBucket.FB_LIVE_INPUTS
    (if Spills (ledger.toNat + half n) (n + 1) then ({} : Bucket E K) else M) (bl.curr n)
    (bl₀.buckets.take (2 * n)) (decide (n + 1 < 10)) = next
  exact
  { level := fun i => by
      by_cases hi : i = n
      · rw [hi, spilled_self]
        exact h.level n
      · by_cases hi' : i = n + 1
        · rw [hi', spilled_succ]
          exact h.level (n + 1)
        · rw [spilled_ne hi hi', h.level i]
    view := fun k => by rw [view_spilled hM hn h.last, h.view k]
    last := by
      by_cases hn9 : n = 9
      · subst hn9
        rw [BucketList.snap, spilled_succ]
        exact h.last
      · rw [BucketList.snap, spilled_ne (by omega) (by omega)]
        exact h.last
    next := fun j hj hj' => by
      rcases hj.eq_or_lt with rfl | hlt
      · -- the merge that was just prepared
        obtain ⟨M', hM', -⟩ := merge_spec
          (if Spills (ledger.toNat + half n) (n + 1) then ({} : Bucket E K) else M) (bl.curr n)
          (bl₀.buckets.take (2 * n)) (decide (n + 1 < 10))
        have hfloor : ledger.toNat / half n * half n = ledger.toNat := Nat.div_mul_cancel hspill.2
        refine Or.inr ⟨Nat.le_of_dvd hL hspill.2, bl₀.buckets.take (2 * n), M', ?_, ?_, fun b hb k hk => ?_⟩
        · rw [hfloor]
          simpa [BucketList.curr, BucketList.snap, spilled_succ, spilled_self] using hM'
        · rw [spilled_succ, ← hnext, hfloor]
          simp [BucketList.curr, BucketList.snap, spilled_succ, spilled_self]
        · have hbelow : (spilled bl n M next).firstBelow n k = bl₀.firstBelow n k :=
            BucketList.firstBelow_congr (fun i hi => by
              rw [spilled_ne (by omega) (by omega), h.below i (by omega)]) k
          rw [BucketList.above, hbelow]
          intro hnone
          exact BucketList.firstBelow_ne_none (by unfold kNumLevels; omega) hb hk
            (Option.or_eq_none_iff.mp hnone).1
      · have hlevel : (spilled bl n M next).mLevels (j + 1) = bl.mLevels (j + 1) :=
          spilled_ne (by omega) (by omega)
        refine (h.next j hlt hj').congr (Or.inl (by rw [hlevel]))
          (by rw [BucketList.curr, hlevel]; rfl) ?_ fun k hk => by rwa [above_spilled hM hlt hj']
        by_cases hjn : j = n + 1
        · rw [hjn, BucketList.snap, spilled_succ]
          rfl
        · rw [BucketList.snap, spilled_ne (by omega) hjn]
          rfl
    below := fun i hi => by rw [spilled_ne (by omega) (by omega), h.below i (by omega)]
    nextCurr := by rw [spilled_self, ← h.below n (by omega)]
    curr := by rw [BucketList.curr, spilled_self, if_pos hspill] }

/-- The shadows left for the next round. -/
theorem dropLast_dropLast_take {α : Type} {l : List α} {m : ℕ} (h : m + 2 ≤ l.length) :
    (l.take (m + 2)).dropLast.dropLast = l.take m := by
  have h₁ : (l.take (m + 2)).length = m + 2 := by
    rw [List.length_take]
    omega
  rw [List.dropLast_eq_take, List.dropLast_eq_take, List.length_take, h₁, List.take_take,
    List.take_take]
  congr 1
  omega

theorem length_buckets (bl : BucketList E K) : bl.buckets.length = 22 := by
  simp [BucketList.buckets, List.length_flatMap, kNumLevels]

/-- **The loop of `addBatch`** does not fail, and keeps the view. -/
theorem spillLoop_spec {ledger : UInt32} (h₀ : Inv (ledger.toNat - 1) bl₀) (hL : 0 < ledger.toNat)
    (hn : n ≤ 10) (h : Mid ledger.toNat bl₀ bl n) :
    ∃ bl', BucketList.spillLoop ledger n (bl₀.buckets.take (2 * n)) bl = .ok ([], bl') ∧
      Mid ledger.toNat bl₀ bl' 0 := by
  induction n generalizing bl with
  | zero => exact ⟨bl, rfl, h⟩
  | succ n ih =>
    have hlen : 2 ≤ (bl₀.buckets.take (2 * (n + 1))).length := by
      rw [List.length_take, length_buckets]
      omega
    have hdrop : (bl₀.buckets.take (2 * (n + 1))).dropLast.dropLast = bl₀.buckets.take (2 * n) :=
      dropLast_dropLast_take (m := 2 * n) (by rw [length_buckets]; omega)
    unfold BucketList.spillLoop
    rw [hdrop, decide_eq_true hlen]
    by_cases hspill : Spills ledger.toNat n
    · obtain ⟨bl₁, hspilled, hmid⟩ := h.spill h₀ hL (by omega) hspill
      obtain ⟨bl', hloop, hmid'⟩ := ih (by omega) hmid
      refine ⟨bl', ?_, hmid'⟩
      rw [if_pos ((levelShouldSpill_iff (by omega)).mpr hspill), hspilled]
      exact hloop
    · obtain ⟨bl', hloop, hmid'⟩ := ih (by omega) (h.keep h₀ hL (by omega) hspill)
      refine ⟨bl', ?_, hmid'⟩
      rw [if_neg (mt (levelShouldSpill_iff (by omega)).mp hspill)]
      exact hloop

section Front

variable {bl bl' : BucketList E K} {fresh : Bucket E K}
  (hcurr : ∀ k, (bl'.curr 0).find k = (fresh.find k).or ((bl.curr 0).find k))
  (hsnap : bl'.snap 0 = bl.snap 0) (h : ∀ i, i ≠ 0 → bl'.mLevels i = bl.mLevels i)

include hcurr hsnap h

/-- A new first bucket comes before everything else. -/
theorem firstBelow_front (m : ℕ) (k : K) :
    bl'.firstBelow (m + 1) k = (fresh.find k).or (bl.firstBelow (m + 1) k) := by
  induction m with
  | zero => simp [BucketList.firstBelow, hcurr, hsnap, Option.or_assoc]
  | succ m ih =>
    rw [BucketList.firstBelow, ih, Option.or_assoc, BucketList.curr, BucketList.snap,
      h (m + 1) (by omega)]
    rfl

theorem above_front (m : ℕ) (k : K) : bl'.above m k = (fresh.find k).or (bl.above m k) := by
  cases m with
  | zero => simp [BucketList.above, BucketList.firstBelow, hcurr]
  | succ m =>
    rw [BucketList.above, firstBelow_front hcurr hsnap h, Option.or_assoc, BucketList.curr,
      h (m + 1) (by omega)]
    rfl

end Front

/-- After the loop the batch goes to level 0. -/
theorem addBatch_eq {ledger : UInt32} {batch : Batch E K} {bl₁ : BucketList E K}
    (hL : 0 < ledger.toNat)
    (hloop : BucketList.spillLoop ledger 10 (bl.buckets.take (2 * 10)) bl = .ok ([], bl₁)) :
    bl.addBatch ledger batch =
      (match Bucket.fresh batch.liveEntries batch.deadEntries with
      | none => throw .mergeOrder
      | some fresh => do
        let level ← (bl₁.mLevels 0).prepare ledger fresh []
        let level ← level.commit
        pure (bl₁.setLevel 0 level)) := by
  have hdrop : bl.buckets.dropLast.dropLast = bl.buckets.take (2 * 10) := by
    rw [← dropLast_dropLast_take (m := 2 * 10) (by rw [length_buckets]),
      List.take_of_length_le (by rw [length_buckets])]
  have hpos : 0 < ledger := UInt32.lt_iff_toNat_lt.mpr hL
  unfold BucketList.addBatch
  simp only [decide_eq_true hpos, length_buckets, hdrop, kNumLevels, Nat.add_one_sub_one, hloop]
  rfl

/-- **One ledger**: no assertion fails, and the view changes as the batch says. -/
theorem addBatch_spec {ledger : UInt32} {batch : Batch E K} (h : Inv (ledger.toNat - 1) bl)
    (hL : 0 < ledger.toNat) (hbatch : batch.Distinct) :
    ∃ bl', bl.addBatch ledger batch = .ok bl' ∧ Inv ledger.toNat bl' ∧
      ∀ k, bl'.view k = ((batch.find k).map BucketEntry.live?).getD (bl.view k) := by
  obtain ⟨bl₁, hloop, hmid⟩ := spillLoop_spec h hL le_rfl (Mid.start h)
  obtain ⟨fresh, hfresh, hfind⟩ := fresh_spec hbatch
  have hclear : (bl₁.mLevels 0).mNextCurr = .FB_CLEAR := hmid.nextCurr.trans h.fresh
  obtain ⟨M, hM, -⟩ := merge_spec (bl₁.curr 0) fresh [] true
  have hprepare : (bl₁.mLevels 0).prepare ledger fresh [] = .ok { bl₁.mLevels 0 with
      mNextCurr := .FB_LIVE_INPUTS (bl₁.curr 0) fresh [] true } := by
    rw [BucketLevel.prepare_eq _ _ _ _ (by rw [hclear]; rfl)]
    simp [hmid.level 0, kNumLevels, BucketList.curr]
  have hcommit : ({ bl₁.mLevels 0 with
      mNextCurr := .FB_LIVE_INPUTS (bl₁.curr 0) fresh [] true } : BucketLevel E K).commit =
        .ok ((bl₁.mLevels 0).setCurr M) := BucketLevel.commit_output hM
  let bl' := bl₁.setLevel 0 ((bl₁.mLevels 0).setCurr M)
  have hzero : bl'.mLevels 0 = (bl₁.mLevels 0).setCurr M := by simp [bl', BucketList.setLevel]
  have hne : ∀ i, i ≠ 0 → bl'.mLevels i = bl₁.mLevels i := fun i hi => by
    simp [bl', BucketList.setLevel, hi]
  have hsnap : ∀ i, bl'.snap i = bl₁.snap i := fun i => by
    by_cases hi : i = 0
    · rw [hi, BucketList.snap, hzero]
      rfl
    · rw [BucketList.snap, hne i hi]
      rfl
  have hcurr₀ : ∀ k, (bl'.curr 0).find k = (fresh.find k).or ((bl₁.curr 0).find k) := fun k => by
    rw [BucketList.curr, hzero]
    exact Bucket.find_merge_all hM k
  refine ⟨bl', ?_, ?_, fun k => ?_⟩
  · rw [addBatch_eq hL hloop, hfresh]
    show ((bl₁.mLevels 0).prepare ledger fresh [] >>= fun _ => _) = _
    rw [hprepare]
    show (BucketLevel.commit _ >>= fun _ => _) = _
    rw [hcommit]
    rfl
  · exact
    { level := fun i => by
        by_cases hi : i = 0
        · rw [hi, hzero]
          exact hmid.level 0
        · rw [hne i hi, hmid.level i]
      fresh := by rw [hzero]; rfl
      last := (hsnap 10).trans hmid.last
      next := fun j hj => by
        have hlevel : bl'.mLevels (j + 1) = bl₁.mLevels (j + 1) := hne (j + 1) (by omega)
        have hcurr : bl'.curr (j + 1) = bl₁.curr (j + 1) := by rw [BucketList.curr, hlevel]; rfl
        refine (hmid.next j (by omega) hj).congr (Or.inl (by rw [hlevel]))
          hcurr (hsnap j) fun k hk hnone => ?_
        -- a new first bucket only adds to what is mentioned
        rw [above_front hcurr₀ (hsnap 0) hne] at hnone
        exact hk (Option.or_eq_none_iff.mp hnone).2 }
  · rw [BucketList.view_eq, firstBelow_front hcurr₀ (hsnap 0) hne, hfind, ← hmid.view,
      BucketList.view_eq]
    cases batch.find k <;> rfl

end Ledger

/-! ## Merges that complete early -/

section Ready

variable (bl : BucketList E K) (ready : ℕ → Bool)

@[simp] theorem resolveReady_curr (i : ℕ) : (bl.resolveReady ready).curr i = bl.curr i := by
  unfold BucketList.resolveReady BucketList.curr
  simp only
  repeat' split
  all_goals rfl

@[simp] theorem resolveReady_snap (i : ℕ) : (bl.resolveReady ready).snap i = bl.snap i := by
  unfold BucketList.resolveReady BucketList.snap
  simp only
  repeat' split
  all_goals rfl

@[simp] theorem resolveReady_mLevel (i : ℕ) :
    ((bl.resolveReady ready).mLevels i).mLevel = (bl.mLevels i).mLevel := by
  unfold BucketList.resolveReady
  simp only
  repeat' split
  all_goals rfl

/-- Resolving a merge early changes what holds it, not what it gives. -/
theorem resolveReady_next (i : ℕ) :
    Completes (bl.mLevels i).mNextCurr ((bl.resolveReady ready).mLevels i).mNextCurr := by
  unfold BucketList.resolveReady
  simp only
  split
  · cases hout : (bl.mLevels i).mNextCurr.output? with
    | none =>
      obtain ⟨e, he⟩ := FutureBucket.resolve_none hout
      rw [he]
      exact Or.inl rfl
    | some M =>
      rw [FutureBucket.resolve_output hout]
      exact Or.inr ⟨M, hout, rfl⟩
  · exact Or.inl rfl

theorem resolveReady_clear {i : ℕ} (hc : (bl.mLevels i).mNextCurr = .FB_CLEAR) :
    ((bl.resolveReady ready).mLevels i).mNextCurr = .FB_CLEAR := by
  rcases resolveReady_next bl ready i with h | ⟨M, hM, -⟩
  · rw [h, hc]
  · rw [hc] at hM
    cases hM

theorem firstBelow_resolveReady (n : ℕ) (k : K) :
    (bl.resolveReady ready).firstBelow n k = bl.firstBelow n k := by
  induction n with
  | zero => rfl
  | succ n ih => simp only [BucketList.firstBelow, ih, resolveReady_curr, resolveReady_snap]

variable {bl}

theorem Inv.resolveReady {L : ℕ} (h : Inv L bl) : Inv L (bl.resolveReady ready) where
  level i := by rw [resolveReady_mLevel, h.level]
  fresh := resolveReady_clear bl ready h.fresh
  last := by rw [resolveReady_snap, h.last]
  next j hj := (h.next j hj).congr (resolveReady_next bl ready (j + 1))
    (resolveReady_curr bl ready _) (resolveReady_snap bl ready _)
    fun k hk => by
      rwa [BucketList.above, firstBelow_resolveReady, resolveReady_curr]

end Ready

/-! ## Histories -/

/-- The empty list. -/
theorem inv_start : Inv 0 ({} : BucketList E K) where
  level _ := rfl
  fresh := rfl
  last := rfl
  next j _ := Or.inl ⟨half_pos j, rfl, rfl⟩

theorem runBatches_concat (ready : ℕ → ℕ → Bool) (batches : List (Batch E K)) (batch : Batch E K) :
    runBatches ready (batches ++ [batch]) = (do
      let bl ← runBatches ready batches
      let bl ← bl.addBatch (UInt32.ofNat (batches.length + 1)) batch
      pure (bl.resolveReady (ready batches.length))) := by
  simp [runBatches, addBatches, List.zipIdx_append]

theorem runBatches_spec (ready : ℕ → ℕ → Bool) {batches : List (Batch E K)}
    (hlen : batches.length < 2 ^ 32) (hdistinct : ∀ batch ∈ batches, batch.Distinct) :
    ∃ bl, runBatches ready batches = .ok bl ∧ Inv batches.length bl ∧
      ∀ k, bl.view k = ledgerAfter batches k := by
  induction batches using List.reverseRecOn with
  | nil => exact ⟨{}, rfl, inv_start, fun k => rfl⟩
  | append_singleton batches batch ih =>
    rw [List.length_append, List.length_singleton] at hlen
    obtain ⟨bl, hrun, hinv, hview⟩ := ih (by omega) fun b hb => hdistinct b (by simp [hb])
    have hnat : (UInt32.ofNat (batches.length + 1)).toNat = batches.length + 1 :=
      UInt32.toNat_ofNat_of_lt' hlen
    obtain ⟨bl', hadd, hinv', hview'⟩ := addBatch_spec
      (by rw [hnat]; exact hinv) (by omega) (hdistinct batch (by simp))
    rw [hnat] at hinv'
    refine ⟨bl'.resolveReady (ready batches.length), ?_, ?_, fun k => ?_⟩
    · rw [runBatches_concat, hrun]
      show (bl.addBatch _ batch >>= fun _ => _) = _
      rw [hadd]
      rfl
    · rw [List.length_append, List.length_singleton]
      exact hinv'.resolveReady _
    · rw [BucketList.view_eq, firstBelow_resolveReady, ← BucketList.view_eq, hview', hview]
      simp [ledgerAfter]

/-- **The bucket list refines the ledger map.** Along every history, whenever merges complete, no
assertion fails and the list shows the ledger. -/
theorem view_runBatches (ready : ℕ → ℕ → Bool) (batches : List (Batch E K))
    (hlen : batches.length < 2 ^ 32) (hdistinct : ∀ batch ∈ batches, batch.Distinct) :
    ∃ bl, runBatches ready batches = .ok bl ∧ ∀ k, bl.view k = ledgerAfter batches k := by
  obtain ⟨bl, hrun, -, hview⟩ := runBatches_spec ready hlen hdistinct
  exact ⟨bl, hrun, hview⟩

section Example

open Ledger

/-- An account is created, and merged away in the next ledger. -/
def createAndMerge : List (Batch LedgerEntry LedgerKey) :=
  [⟨[⟨1, .account { accountID := 7 }⟩], []⟩, ⟨[], [.account 7]⟩]

/-- The list shows that the account is gone. -/
theorem view_createAndMerge : ∃ bl, runBatches (fun _ _ => true) createAndMerge = .ok bl ∧
    ∀ k, bl.view k = ledgerAfter createAndMerge k :=
  view_runBatches (fun _ _ => true) createAndMerge (by decide) (by decide)

end Example

end SmartCore.Buckets
