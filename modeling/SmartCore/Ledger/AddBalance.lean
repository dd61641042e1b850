import SmartCore.Ledger.Frames
import Mathlib.Tactic.Common

/-!
# Adding to the balance of a trust line

`addBalance` forms the sum in 64 bits and compares what comes out, with the limit and with zero. The
line of a holder is not negative, so that a sum that wraps around is seen: it is negative. The line
of the issuer has no lower bound, and there both ends of the range are open. A sum above it comes
out negative, which the issuer may owe; a sum below it comes out positive, and passes if it is not
above the limit.

**Theorem (`addBalance_exact_iff`).** For every valid line and every 64-bit amount, what `addBalance`
promises holds if and only if the line is not that of the issuer, or is not authorized, or the sum
is in the range or is still refused because of the limit after it has wrapped around.

The line is valid after it in any case (`isValid_addBalanceInPlace`), and can be stored
(`storeChange_ok_iff`).
-/

namespace SmartCore.Ledger

/-! ## Sums in 64 bits -/

theorem int64_eq_iff {x : ℤ} : int64 x = x ↔ InRange x :=
  ⟨fun h => h ▸ int64_inRange x, int64_of_inRange⟩

theorem int64_add_period (x : ℤ) : int64 (x + 2 ^ 64) = int64 x := by
  exact Int.add_bmod_right x (2 ^ 64)

/-- A sum above the range comes out one period below. -/
theorem int64_of_gt {x : ℤ} (hgt : INT64_MAX < x) (hlt : x < INT64_MAX + 2 ^ 64) :
    int64 x = x - 2 ^ 64 := by
  have hrange : InRange (x - 2 ^ 64) := by
    unfold InRange INT64_MIN INT64_MAX at *
    omega
  have hperiod := int64_add_period (x - 2 ^ 64)
  rwa [sub_add_cancel, int64_of_inRange hrange] at hperiod

/-- A sum below the range comes out one period above. -/
theorem int64_of_lt {x : ℤ} (hlt : x < INT64_MIN) (hgt : INT64_MIN - 2 ^ 64 ≤ x) :
    int64 x = x + 2 ^ 64 := by
  have hrange : InRange (x + 2 ^ 64) := by
    unfold InRange INT64_MIN INT64_MAX at *
    omega
  rw [← int64_add_period, int64_of_inRange hrange]

namespace TrustFrame

variable {f g : TrustFrame} {delta : ℤ} {d : ℕ} {s : LedgerState}

/-! ## The code in place -/

/-- `addBalance` as it is called: whether the amount was added, and the frame that is left. -/
def addBalanceInPlace (delta : ℤ) : StateM TrustFrame Bool := do
  if delta = 0 then return true
  if !(← get).isAuthorized then return false
  let mTrustLine := (← get).mTrustLine
  if mTrustLine.limit < int64 (delta + mTrustLine.balance) then return false
  if int64 (delta + mTrustLine.balance) < 0 ∧
      ¬ mTrustLine.accountID = getIssuer mTrustLine.asset then
    return false
  modify fun f => { f with
    mTrustLine := { f.mTrustLine with balance := int64 (f.mTrustLine.balance + delta) }
    added := f.added + delta }
  return true

/-- The frame is the one that `addBalance` returns, or it is as it was. -/
theorem addBalanceInPlace_run (f : TrustFrame) (delta : ℤ) :
    (addBalanceInPlace delta).run f =
      match f.addBalance delta with
      | some g => (true, g)
      | none => (false, f) := by
  have hcomm : f.mTrustLine.balance + delta = delta + f.mTrustLine.balance := add_comm _ _
  unfold addBalanceInPlace addBalance
  by_cases hzero : delta = 0
  · simp [hzero]
    rfl
  by_cases hauth : f.isAuthorized = true
  · by_cases hlimit : f.mTrustLine.limit < int64 (delta + f.mTrustLine.balance)
    · simp [hzero, hauth, hlimit]
      rfl
    by_cases howes : int64 (delta + f.mTrustLine.balance) < 0 ∧
        ¬ f.mTrustLine.accountID = getIssuer f.mTrustLine.asset
    · simp [hzero, hauth, hlimit, howes]
      rfl
    · simp [hzero, hauth, hlimit, howes, hcomm]
      rfl
  · simp [hzero, hauth]
    rfl

/-! ## Valid lines -/

theorem isValid_iff : f.isValid = true ↔
    f.mTrustLine.asset ≠ .native ∧ isAssetValid f.mTrustLine.asset = true ∧
      (0 ≤ f.mTrustLine.balance ∨ f.mTrustLine.accountID = getIssuer f.mTrustLine.asset) ∧
        0 < f.mTrustLine.limit ∧ f.mTrustLine.balance ≤ f.mTrustLine.limit := by
  simp only [isValid, decide_eq_true_eq]

/-- When an amount is added: the sum, as it comes out, is compared. -/
theorem addBalance_eq_some_iff (hzero : delta ≠ 0) : f.addBalance delta = some g ↔
    (f.isAuthorized = true ∧ int64 (f.mTrustLine.balance + delta) ≤ f.mTrustLine.limit ∧
      (0 ≤ int64 (f.mTrustLine.balance + delta) ∨
        f.mTrustLine.accountID = getIssuer f.mTrustLine.asset)) ∧
      g = { f with
        mTrustLine := { f.mTrustLine with balance := int64 (f.mTrustLine.balance + delta) }
        added := f.added + delta } := by
  unfold addBalance
  rw [add_comm f.mTrustLine.balance, if_neg hzero]
  split_ifs with hauth hlimit howes
  · simp at hauth
    simp [hauth]
  · exact iff_of_false nofun fun h => absurd h.1.2.1 (not_le.mpr hlimit)
  · refine iff_of_false nofun fun h => ?_
    rcases h.1.2.2 with hpos | hissuer
    · exact absurd hpos (not_le.mpr howes.1)
    · exact howes.2 hissuer
  · rw [Option.some.injEq, eq_comm]
    refine (and_iff_right ⟨by simpa using hauth, not_lt.mp hlimit, ?_⟩).symm
    by_cases hpos : 0 ≤ int64 (delta + f.mTrustLine.balance)
    · exact Or.inl hpos
    · exact Or.inr (not_not.mp fun hne => howes ⟨not_le.mp hpos, hne⟩)

/-- The key stays, and a valid line stays valid. -/
theorem isValid_of_addBalance (hvalid : f.isValid = true) (h : f.addBalance delta = some g) :
    g.isValid = true ∧ g.getKey = f.getKey := by
  by_cases hzero : delta = 0
  · rw [addBalance, if_pos hzero] at h
    obtain rfl := Option.some.inj h
    exact ⟨hvalid, rfl⟩
  · obtain ⟨⟨-, hlimit, howes⟩, rfl⟩ := (addBalance_eq_some_iff hzero).mp h
    obtain ⟨hnative, hasset, -, hpos, -⟩ := isValid_iff.mp hvalid
    exact ⟨isValid_iff.mpr ⟨hnative, hasset, howes, hpos, hlimit⟩, rfl⟩

theorem isValid_addBalanceInPlace (hvalid : f.isValid = true) (delta : ℤ) :
    ((addBalanceInPlace delta).run f).2.isValid = true ∧
      ((addBalanceInPlace delta).run f).2.getKey = f.getKey := by
  rw [addBalanceInPlace_run]
  cases hadd : f.addBalance delta with
  | none => exact ⟨hvalid, rfl⟩
  | some g => exact isValid_of_addBalance hvalid hadd

/-! ## Storing a line -/

/-- The line is in its table, and the delta has not deleted it. -/
structure HasLine (d : ℕ) (f : TrustFrame) (s : LedgerState) : Prop where
  seq : (s.deltas d).mUpdateLastModified = true → (s.deltas d).mCurrentHeader.ledgerSeq ≠ 0
  row : f.getKey ∈ s.db.trustlines
  taken : f.getKey ∈ (s.deltas d).mDelete →
    f.getKey ∈ (s.deltas d).mMod ∨ f.getKey ∈ (s.deltas d).mNew

theorem HasLine.of_key (h : HasLine d f s) (hkey : g.getKey = f.getKey) : HasLine d g s :=
  ⟨h.seq, hkey ▸ h.row, hkey ▸ h.taken⟩

theorem modEntry_ne_none_iff {δ : LedgerDelta} {e : LedgerEntry} : δ.modEntry e ≠ none ↔
    (LedgerEntryKey e ∈ δ.mDelete → LedgerEntryKey e ∈ δ.mMod ∨ LedgerEntryKey e ∈ δ.mNew) := by
  unfold LedgerDelta.modEntry
  dsimp only
  split_ifs with hmod hnew hdelete <;> simp [*]

/-- **A line is stored** exactly if it is valid and there. -/
theorem storeChange_ok_iff : (∃ g t, f.storeChange d s = .ok g t) ↔
    f.isValid = true ∧ HasLine d f s := by
  constructor
  · intro h
    obtain ⟨g, t, h⟩ := h
    refine of_wp_ok (Q := fun _ _ => f.isValid = true ∧ HasLine d f s) (E := fun _ _ => True) ?_ h
    simp only [storeChange, touch, assertion, flushCachedEntry, wp_bind, wp_require,
      wp_get, wp_modify, wp_pure, wp_ite, wp_throw]
    refine ⟨fun _ => trivial, fun hvalid => ⟨fun hseq => ?_, fun _ => trivial⟩⟩
    split
    · trivial
    · simp only [wp_bind, wp_modify, wp_updateDelta, wp_pure]
      refine ⟨fun δ hδ => ⟨by simpa using hvalid, of_decide_eq_true hseq, ?_, ?_⟩, fun _ => trivial⟩
      · rw [Std.ExtTreeMap.mem_iff_isSome_getElem?]
        simp_all [getKey]
      · exact modEntry_ne_none_iff.mp (by rw [hδ]; exact Option.some_ne_none _)
  · intro h
    obtain ⟨hvalid, hline⟩ := h
    refine (exists_of_wp (Q := fun _ _ => True) ?_).imp fun g hg => hg.imp fun t ht => ht.1
    simp only [storeChange, touch, assertion, flushCachedEntry, wp_bind, wp_require,
      wp_get, wp_modify, wp_pure, wp_ite, wp_throw]
    refine ⟨fun hinvalid => ?_, fun _ => ⟨fun _ => ?_, fun hseq => ?_⟩⟩
    · simp [hvalid] at hinvalid
    · obtain ⟨row, hrow⟩ := Option.isSome_iff_exists.mp
        (Std.ExtTreeMap.mem_iff_isSome_getElem?.mp hline.row)
      have hkey : ∀ seq, getKey { f with lastModified := seq } = f.getKey := fun _ => rfl
      rw [hkey, hrow]
      simp only [wp_bind, wp_modify, wp_updateDelta, wp_pure]
      exact ⟨fun _ _ => trivial, modEntry_ne_none_iff.mpr hline.taken⟩
    · exact absurd hline.seq (of_decide_eq_false hseq)

/-! ## Exactness -/

/-- What `addBalance` promises for a line and an amount. -/
structure Exact (f : TrustFrame) (delta : ℤ) : Prop where
  /-- If it returns true the amount has been added, and nothing else has changed. -/
  added : ((addBalanceInPlace delta).run f).1 = true →
    ((addBalanceInPlace delta).run f).2.mTrustLine =
        { f.mTrustLine with balance := f.mTrustLine.balance + delta } ∧
      f.mTrustLine.balance + delta ≤ f.mTrustLine.limit ∧
        (0 ≤ f.mTrustLine.balance + delta ∨
          f.mTrustLine.accountID = getIssuer f.mTrustLine.asset)
  /-- If it returns false nothing has changed. -/
  refused : ((addBalanceInPlace delta).run f).1 = false →
    ((addBalanceInPlace delta).run f).2 = f
  valid : ((addBalanceInPlace delta).run f).2.isValid = true
  /-- Storing the line does not throw where it is. -/
  stored : ∀ d s, HasLine d f s →
    ∃ g t, ((addBalanceInPlace delta).run f).2.storeChange d s = .ok g t

/-- The condition: an authorized line of the issuer does not leave the range, or it is refused
because of its limit when it has. -/
def Fits (f : TrustFrame) (delta : ℤ) : Prop :=
  f.isAuthorized = true → f.mTrustLine.accountID = getIssuer f.mTrustLine.asset →
    f.mTrustLine.limit - 2 ^ 64 < f.mTrustLine.balance + delta ∧
      f.mTrustLine.balance + delta ≤ INT64_MAX

/-- **A sum that is accepted** has not left the range if and only if it fits. -/
theorem inRange_iff_fits (hvalid : f.isValid = true) (hbalance : InRange f.mTrustLine.balance)
    (hlimit : f.mTrustLine.limit ≤ INT64_MAX) (hdelta : InRange delta)
    (hauth : f.isAuthorized = true)
    (hle : int64 (f.mTrustLine.balance + delta) ≤ f.mTrustLine.limit)
    (howes : 0 ≤ int64 (f.mTrustLine.balance + delta) ∨
      f.mTrustLine.accountID = getIssuer f.mTrustLine.asset) :
    InRange (f.mTrustLine.balance + delta) ↔ Fits f delta := by
  obtain ⟨-, -, hholder, hpos, -⟩ := isValid_iff.mp hvalid
  obtain ⟨hmin, hmax⟩ := hbalance
  obtain ⟨hmin', hmax'⟩ := hdelta
  constructor
  · intro hrange _ _
    obtain ⟨hlo, hhi⟩ := hrange
    refine ⟨?_, hhi⟩
    unfold INT64_MIN INT64_MAX at *
    omega
  · intro hfits
    by_cases hgt : INT64_MAX < f.mTrustLine.balance + delta
    · -- it comes out negative, and only the issuer may owe
      have hsum := int64_of_gt hgt (by unfold INT64_MAX at *; omega)
      rw [hsum] at howes
      have hissuer := howes.resolve_left (by unfold INT64_MAX at *; omega)
      exact absurd (hfits hauth hissuer).2 (not_le.mpr hgt)
    by_cases hlt : f.mTrustLine.balance + delta < INT64_MIN
    · -- the line was negative, so it is that of the issuer
      have hsum := int64_of_lt hlt (by unfold INT64_MIN at *; omega)
      have hissuer := hholder.resolve_left (by unfold INT64_MIN at *; omega)
      have hfit := (hfits hauth hissuer).1
      rw [hsum] at hle
      omega
    · exact ⟨not_lt.mp hlt, not_lt.mp hgt⟩

/-- A sum that does not fit would be accepted. -/
theorem accepted_of_not_fits (hvalid : f.isValid = true) (hbalance : InRange f.mTrustLine.balance)
    (hlimit : f.mTrustLine.limit ≤ INT64_MAX) (hdelta : InRange delta) (hfits : ¬ Fits f delta) :
    delta ≠ 0 ∧ f.isAuthorized = true ∧
      f.mTrustLine.accountID = getIssuer f.mTrustLine.asset ∧
        int64 (f.mTrustLine.balance + delta) ≤ f.mTrustLine.limit := by
  obtain ⟨-, -, -, hpos, hle⟩ := isValid_iff.mp hvalid
  obtain ⟨hmin, hmax⟩ := hbalance
  obtain ⟨hmin', hmax'⟩ := hdelta
  simp only [Fits, not_forall, not_and_or, not_lt, not_le] at hfits
  obtain ⟨hauth, hissuer, hout⟩ := hfits
  refine ⟨?_, hauth, hissuer, ?_⟩
  · intro hzero
    unfold INT64_MIN INT64_MAX at *
    omega
  · rcases hout with hlow | hhigh
    · have hsum := int64_of_lt (x := f.mTrustLine.balance + delta)
        (by unfold INT64_MIN INT64_MAX at *; omega) (by unfold INT64_MIN at *; omega)
      rw [hsum]
      omega
    · have hsum := int64_of_gt hhigh (by unfold INT64_MAX at *; omega)
      rw [hsum]
      unfold INT64_MAX at *
      omega

/-- **Main theorem**: for every valid line and every 64-bit amount, `addBalance` keeps what it
promises if and only if the sum fits. -/
theorem addBalance_exact_iff (f : TrustFrame) (delta : ℤ) (hvalid : f.isValid = true)
    (hbalance : InRange f.mTrustLine.balance) (hlimit : InRange f.mTrustLine.limit)
    (hdelta : InRange delta) :
    Exact f delta ↔ Fits f delta := by
  obtain ⟨hstill, hkey⟩ := isValid_addBalanceInPlace hvalid delta
  have hstored : ∀ d s, HasLine d f s →
      ∃ g t, ((addBalanceInPlace delta).run f).2.storeChange d s = .ok g t := fun d s hline =>
    storeChange_ok_iff.mpr ⟨hstill, hline.of_key hkey⟩
  constructor
  · intro hexact
    by_contra hfits
    obtain ⟨hzero, hauth, hissuer, hle⟩ :=
      accepted_of_not_fits hvalid hbalance hlimit.2 hdelta hfits
    have hadd := (addBalance_eq_some_iff hzero).mpr ⟨⟨hauth, hle, Or.inr hissuer⟩, rfl⟩
    have hrun := addBalanceInPlace_run f delta
    rw [hadd] at hrun
    have hsum := (hexact.added (by rw [hrun])).1
    rw [hrun] at hsum
    have hrange := int64_eq_iff.mp (congrArg TrustLineEntry.balance hsum)
    exact hfits ((inRange_iff_fits hvalid hbalance hlimit.2 hdelta hauth hle (Or.inr hissuer)).mp
      hrange)
  · intro hfits
    cases hadd : f.addBalance delta with
    | none =>
      have hrun : (addBalanceInPlace delta).run f = (false, f) := by
        rw [addBalanceInPlace_run, hadd]
      refine ⟨fun h => ?_, fun _ => by rw [hrun], hstill, hstored⟩
      rw [hrun] at h
      cases h
    | some g =>
      have hrun : (addBalanceInPlace delta).run f = (true, g) := by
        rw [addBalanceInPlace_run, hadd]
      refine ⟨fun _ => ?_, fun h => ?_, hstill, hstored⟩
      · rw [hrun]
        by_cases hzero : delta = 0
        · rw [addBalance, if_pos hzero] at hadd
          obtain rfl := Option.some.inj hadd
          obtain ⟨-, -, hholder, -, hle⟩ := isValid_iff.mp hvalid
          rw [hzero, add_zero]
          exact ⟨rfl, hle, hholder⟩
        · obtain ⟨⟨hauth, hle, howes⟩, rfl⟩ := (addBalance_eq_some_iff hzero).mp hadd
          have hsum := int64_of_inRange
            ((inRange_iff_fits hvalid hbalance hlimit.2 hdelta hauth hle howes).mpr hfits)
          rw [hsum] at hle howes ⊢
          exact ⟨rfl, hle, howes⟩
      · rw [hrun] at h
        cases h

/-! ### Example -/

/-- The line of the bank, after it has paid all that a holder can have. -/
def owing : TrustFrame where
  mTrustLine :=
    { accountID := 1, asset := .alphaNum4 ⟨[85, 83, 68, 0], rfl⟩ 1, balance := -INT64_MAX
      limit := INT64_MAX, flags := AUTHORIZED_FLAG }

/-- It pays two more: it owes 2 ^ 63 + 1, and its line says that it holds 2 ^ 63 - 1. -/
theorem addBalance_wraps :
    owing.isValid = true ∧ ((addBalanceInPlace (-2)).run owing).1 = true ∧
      ((addBalanceInPlace (-2)).run owing).2.mTrustLine.balance = INT64_MAX ∧
        ¬ Exact owing (-2) := by
  have hbalance : ((addBalanceInPlace (-2)).run owing).2.mTrustLine.balance = INT64_MAX := by
    decide +kernel
  have hadded : ((addBalanceInPlace (-2)).run owing).1 = true := by decide +kernel
  refine ⟨by decide +kernel, hadded, hbalance, fun hexact => ?_⟩
  have hsum := congrArg TrustLineEntry.balance (hexact.added hadded).1
  rw [hbalance] at hsum
  exact absurd hsum (by decide)

/-- It pays one more: that is as much as it can owe. -/
theorem addBalance_exact_iff_owing : Exact owing (-1) :=
  (addBalance_exact_iff owing (-1) (by decide +kernel) (by decide) (by decide) (by decide)).mpr
    fun _ _ => by decide

end TrustFrame

end SmartCore.Ledger
