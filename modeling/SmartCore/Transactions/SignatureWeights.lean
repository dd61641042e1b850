import SmartCore.Transactions.TransactionFrame

/-!
# Counting signatures

`checkSignature` adds up the weights of the signers that have signed, until the weight that is
needed is reached. Every signature uses up the signer it is of, so that it makes no difference how
often a signer has signed.

The weights are unsigned and their total is an `int`. A weight of 2^31, which `SET_OPTIONS` stores
like any other, makes the total negative.

**Theorem (`checkSignature_exact_iff`).** If the exact sum reaches the weight that is needed, it is
found to do so if and only if the sum over some of the first signatures does so as an `int`. What
is found to be enough always is.

**Theorem (`checkAllSignaturesUsed_iff`).** All signatures are used if each was matched by some
check since the tracker was reset.
-/

namespace SmartCore.Transactions

open SmartCore.Ledger TransactionFrame

/-! ## Signers that have signed -/

/-- A signature is of one key. -/
def OneKey (app : Application) : Prop :=
  ∀ key key' signature contentsHash, app.verifySig key signature contentsHash = true →
    app.verifySig key' signature contentsHash = true → key = key'

/-- The signers are ones that `SET_OPTIONS` can store. -/
structure StorableSigners (account : AccountEntry) : Prop where
  distinct : account.signers.Pairwise fun a b => a.pubKey ≠ b.pubKey
  others : ∀ signer ∈ account.signers, signer.pubKey ≠ account.accountID
  weights : ∀ signer ∈ account.signers, 0 < signer.weight ∧ signer.weight < 2 ^ 32
  few : account.signers.length ≤ SetOptionsOpFrame.MAX_SIGNERS

/-! ## Counting -/

variable (app : Application) (env : TransactionEnvelope)

/-- The eligible signers that have a matching signature among `signatures`. -/
def matching (keyWeights : List Signer) (signatures : List DecoratedSignature) : List Signer :=
  keyWeights.filter fun signer => signatures.any fun sig => signs app env sig signer

/-- The exact sum of their weights. -/
def weightOf (keyWeights : List Signer) (signatures : List DecoratedSignature) : ℕ :=
  ((matching app env keyWeights signatures).map (·.weight)).sum

/-- There is such a signer, and their weights are enough as an `int`. -/
def Counts (keyWeights : List Signer) (signatures : List DecoratedSignature) (needed : ℤ) : Prop :=
  matching app env keyWeights signatures ≠ [] ∧
    needed ≤ (weightOf app env keyWeights signatures : ℤ).bmod (2 ^ 32)

section Counting

variable {app env} {keyWeights : List Signer}

theorem mem_matching {signatures : List DecoratedSignature} {signer : Signer} :
    signer ∈ matching app env keyWeights signatures ↔
      signer ∈ keyWeights ∧ ∃ sig ∈ signatures, signs app env sig signer = true := by
  rw [matching, List.mem_filter, List.any_eq_true]

theorem matching_ne_nil {signatures : List DecoratedSignature} :
    matching app env keyWeights signatures ≠ [] ↔
      ∃ signer ∈ keyWeights, ∃ sig ∈ signatures, signs app env sig signer = true := by
  constructor
  · intro hne
    obtain ⟨signer, hmem⟩ := List.exists_mem_of_ne_nil _ hne
    exact ⟨signer, mem_matching.mp hmem⟩
  · rintro ⟨signer, hmem⟩
    exact List.ne_nil_of_mem (mem_matching.mpr hmem)

/-- The keys of an account are distinct. -/
theorem keyWeights_distinct {account : AccountEntry} (h : StorableSigners account) :
    (TransactionFrame.keyWeights env account).Pairwise fun a b => a.pubKey ≠ b.pubKey := by
  unfold TransactionFrame.keyWeights
  dsimp only
  split_ifs
  · exact List.pairwise_cons.mpr ⟨fun signer hmem => (h.others signer hmem).symm, h.distinct⟩
  · exact h.distinct

/-- Among distinct keys, a signature is of one only. -/
theorem pairwise_not_signs (hone : OneKey app)
    (hdistinct : keyWeights.Pairwise fun a b => a.pubKey ≠ b.pubKey) (sig : DecoratedSignature) :
    keyWeights.Pairwise fun a b => ¬ (signs app env sig a = true ∧ signs app env sig b = true) := by
  refine hdistinct.imp fun hne hboth => ?_
  obtain ⟨ha, hb⟩ := hboth
  unfold signs at ha hb
  exact hne (hone _ _ _ _ (Bool.and_eq_true _ _ ▸ ha).2 (Bool.and_eq_true _ _ ▸ hb).2)

theorem filter_eq_find? {p : Signer → Bool} {keys : List Signer}
    (h : keys.Pairwise fun a b => ¬ (p a = true ∧ p b = true)) :
    keys.filter p = (keys.find? p).toList := by
  induction keys with
  | nil => rfl
  | cons a keys ih =>
    obtain ⟨ha, hkeys⟩ := List.pairwise_cons.mp h
    by_cases hp : p a = true
    · have hnone : keys.filter p = [] :=
        List.filter_eq_nil_iff.mpr fun b hb hpb => ha b hb ⟨hp, hpb⟩
      rw [List.filter_cons_of_pos hp, List.find?_cons_of_pos hp, hnone]
      rfl
    · rw [List.filter_cons_of_neg hp, List.find?_cons_of_neg hp, ih hkeys]

theorem eraseP_eq_filter {p : Signer → Bool} {keys : List Signer}
    (h : keys.Pairwise fun a b => ¬ (p a = true ∧ p b = true)) :
    keys.eraseP p = keys.filter fun a => !p a := by
  induction keys with
  | nil => rfl
  | cons a keys ih =>
    obtain ⟨ha, hkeys⟩ := List.pairwise_cons.mp h
    by_cases hp : p a = true
    · have hall : keys.filter (fun b => !p b) = keys :=
        List.filter_eq_self.mpr fun b hb => by
          have hb := fun hpb => ha b hb ⟨hp, hpb⟩
          simpa using hb
      rw [List.eraseP_cons_of_pos hp, List.filter_cons_of_neg (by simp [hp]), hall]
    · rw [List.eraseP_cons_of_neg hp, List.filter_cons_of_pos (by simp [hp]), ih hkeys]

/-- The weight of the keys that pass one of two tests. -/
theorem sum_filter_or (p q : Signer → Bool) (keys : List Signer) :
    ((keys.filter fun a => p a || q a).map (·.weight)).sum =
      ((keys.filter p).map (·.weight)).sum +
        (((keys.filter fun a => !p a).filter q).map (·.weight)).sum := by
  induction keys with
  | nil => rfl
  | cons a keys ih =>
    cases hp : p a <;> cases hq : q a <;> simp [hp, hq, ih] <;> omega

/-- The keys that none of the signatures is of. -/
def unmatched (app : Application) (env : TransactionEnvelope) (keyWeights : List Signer)
    (signatures : List DecoratedSignature) : List Signer :=
  keyWeights.filter fun signer => !signatures.any fun sig => signs app env sig signer

theorem unmatched_append (pre : List DecoratedSignature) (sig : DecoratedSignature) :
    unmatched app env keyWeights (pre ++ [sig]) =
      (unmatched app env keyWeights pre).filter fun signer => !signs app env sig signer := by
  unfold unmatched
  rw [List.filter_filter]
  congr 1
  funext signer
  simp [Bool.and_comm]

theorem weightOf_append (pre signatures : List DecoratedSignature) :
    weightOf app env keyWeights (pre ++ signatures) = weightOf app env keyWeights pre +
      weightOf app env (unmatched app env keyWeights pre) signatures := by
  unfold weightOf matching unmatched
  rw [← sum_filter_or]
  simp only [List.any_append]

theorem weightOf_mono (keyWeights : List Signer) (pre post : List DecoratedSignature) :
    weightOf app env keyWeights pre ≤ weightOf app env keyWeights (pre ++ post) := by
  rw [weightOf_append]
  exact Nat.le_add_right _ _

/-- One signature adds the weight of the key that it is found to be of. -/
theorem weightOf_singleton {sig : DecoratedSignature}
    (h : keyWeights.Pairwise fun a b =>
      ¬ (signs app env sig a = true ∧ signs app env sig b = true)) :
    weightOf app env keyWeights [sig] =
      ((keyWeights.find? (signs app env sig)).toList.map (·.weight)).sum := by
  rw [← filter_eq_find? h]
  simp [weightOf, matching]

theorem weightOf_of_not_matching {signatures : List DecoratedSignature}
    (h : matching app env keyWeights signatures = []) :
    weightOf app env keyWeights signatures = 0 := by
  rw [weightOf, h]
  rfl

/-! ## The loop -/

/-- The first of the signatures is in no part or in front of it. -/
theorem exists_now_cons {P : List DecoratedSignature → Prop} (sig : DecoratedSignature)
    (signatures : List DecoratedSignature) :
    (∃ now later, sig :: signatures = now ++ later ∧ P now) ↔
      P [] ∨ ∃ now later, signatures = now ++ later ∧ P (sig :: now) := by
  constructor
  · rintro ⟨now, later, heq, hP⟩
    rcases List.cons_eq_append_iff.mp heq with ⟨rfl, -⟩ | ⟨now, rfl, hrest⟩
    · exact Or.inl hP
    · exact Or.inr ⟨now, later, hrest, hP⟩
  · rintro (hP | ⟨now, later, rfl, hP⟩)
    · exact ⟨[], sig :: signatures, rfl, hP⟩
    · exact ⟨sig :: now, later, rfl, hP⟩

/-- After the signatures in `pre`, the loop finds the weight to be enough if it reaches a new key,
with a total that is enough as an `int`. -/
theorem enough_iff_from (hone : OneKey app)
    (hdistinct : keyWeights.Pairwise fun a b => a.pubKey ≠ b.pubKey) (needed : ℤ)
    (pre signatures : List DecoratedSignature) (i : ℕ) :
    (checkSignatureLoop app env needed signatures i (unmatched app env keyWeights pre)
        ((weightOf app env keyWeights pre : ℤ).bmod (2 ^ 32))).enough = true ↔
      ∃ now later, signatures = now ++ later ∧
        matching app env (unmatched app env keyWeights pre) now ≠ [] ∧
          needed ≤ (weightOf app env keyWeights (pre ++ now) : ℤ).bmod (2 ^ 32) := by
  induction signatures generalizing pre i with
  | nil =>
    refine iff_of_false (by simp [checkSignatureLoop]) ?_
    rintro ⟨now, later, heq, hne, -⟩
    obtain ⟨rfl, -⟩ := List.append_eq_nil_iff.mp heq.symm
    exact hne (by simp [matching])
  | cons sig signatures ih =>
    have hsub : (unmatched app env keyWeights pre).Sublist keyWeights := List.filter_sublist
    have hpairwise : (unmatched app env keyWeights pre).Pairwise fun a b =>
        ¬ (signs app env sig a = true ∧ signs app env sig b = true) :=
      (pairwise_not_signs hone hdistinct sig).sublist hsub
    have hweight : weightOf app env keyWeights (pre ++ [sig]) = weightOf app env keyWeights pre +
        (((unmatched app env keyWeights pre).find? (signs app env sig)).toList.map
          (·.weight)).sum := by
      rw [weightOf_append, weightOf_singleton hpairwise]
    have hrest := ih (pre ++ [sig]) (i + 1)
    have happend (now : List DecoratedSignature) : pre ++ [sig] ++ now = pre ++ sig :: now := by
      simp
    rw [exists_now_cons, or_iff_right fun h => h.1 (by simp [matching])]
    unfold checkSignatureLoop
    cases hfind : (unmatched app env keyWeights pre).find? (signs app env sig) with
    | none =>
      -- the signature is of none of the keys that are left
      have hnone : ∀ signer ∈ unmatched app env keyWeights pre,
          ¬ signs app env sig signer = true := List.find?_eq_none.mp hfind
      have hkeys : unmatched app env keyWeights (pre ++ [sig]) =
          unmatched app env keyWeights pre := by
        rw [unmatched_append]
        exact List.filter_eq_self.mpr fun signer hmem => by simpa using hnone signer hmem
      have hsame : weightOf app env keyWeights (pre ++ [sig]) =
          weightOf app env keyWeights pre := by
        rw [hweight, hfind]
        rfl
      have hskip (now : List DecoratedSignature) :
          matching app env (unmatched app env keyWeights pre) (sig :: now) =
            matching app env (unmatched app env keyWeights pre) now := by
        unfold matching
        refine List.filter_congr fun signer hmem => ?_
        simp [hnone signer hmem]
      rw [hkeys, hsame] at hrest
      simp only [hrest, hskip, happend]
    | some signer =>
      have hsigns : signs app env sig signer = true := List.find?_some hfind
      have hmem : signer ∈ unmatched app env keyWeights pre := List.mem_of_find?_eq_some hfind
      have hkeys : (unmatched app env keyWeights pre).eraseP (signs app env sig) =
          unmatched app env keyWeights (pre ++ [sig]) := by
        rw [unmatched_append, eraseP_eq_filter hpairwise]
      have htotal : ((weightOf app env keyWeights pre : ℤ).bmod (2 ^ 32) + signer.weight).bmod
          (2 ^ 32) = (weightOf app env keyWeights (pre ++ [sig]) : ℤ).bmod (2 ^ 32) := by
        rw [Int.bmod_add_bmod, hweight, hfind]
        simp
      have hnew (now : List DecoratedSignature) :
          matching app env (unmatched app env keyWeights pre) (sig :: now) ≠ [] :=
        matching_ne_nil.mpr ⟨signer, hmem, sig, List.mem_cons_self, hsigns⟩
      dsimp only
      rw [htotal, hkeys]
      by_cases hle : needed ≤ (weightOf app env keyWeights (pre ++ [sig]) : ℤ).bmod (2 ^ 32)
      · rw [if_pos hle]
        exact iff_of_true rfl ⟨[], signatures, rfl, hnew [], hle⟩
      · rw [if_neg hle]
        dsimp only
        rw [hrest]
        constructor
        · rintro ⟨now, later, rfl, -, hreached⟩
          exact ⟨now, later, rfl, hnew now, by rwa [← happend]⟩
        · rintro ⟨now, later, rfl, -, hreached⟩
          -- without a new key the total would be the one before
          rw [← happend] at hreached
          refine ⟨now, later, rfl, fun hnil => hle ?_, hreached⟩
          have hzero := weightOf_of_not_matching hnil
          rwa [weightOf_append, hzero, add_zero] at hreached

theorem enough_iff (hone : OneKey app)
    (hdistinct : keyWeights.Pairwise fun a b => a.pubKey ≠ b.pubKey) (needed : ℤ)
    (signatures : List DecoratedSignature) (i : ℕ) :
    (checkSignatureLoop app env needed signatures i keyWeights 0).enough = true ↔
      ∃ now later, signatures = now ++ later ∧ Counts app env keyWeights now needed := by
  have hall : unmatched app env keyWeights [] = keyWeights := by simp [unmatched]
  have hzero : weightOf app env keyWeights [] = 0 := by simp [weightOf, matching]
  have hfrom : (checkSignatureLoop app env needed signatures i (unmatched app env keyWeights [])
      ((weightOf app env keyWeights [] : ℤ).bmod (2 ^ 32))).enough = true ↔ _ :=
    enough_iff_from hone hdistinct needed [] signatures i
  rw [hall, hzero] at hfrom
  exact hfrom

end Counting

/-- The weight of the eligible signers that have a matching signature reaches what is needed. -/
def Reaches (account : AccountEntry) (neededWeight : ℤ) : Prop :=
  matching app env (keyWeights env account) env.signatures ≠ [] ∧
    neededWeight ≤ weightOf app env (keyWeights env account) env.signatures

/-- The weight of those that have one among the first signatures reaches it, as an `int`. -/
def ReachesAsInt (account : AccountEntry) (neededWeight : ℤ) : Prop :=
  ∃ n, Counts app env (keyWeights env account) (env.signatures.take n) neededWeight

section Check

variable {app env} {account : AccountEntry} {neededWeight : ℤ}

theorem enough_iff_reachesAsInt (hone : OneKey app) (hstorable : StorableSigners account) :
    (checkSignatureLoop app env neededWeight env.signatures 0 (keyWeights env account) 0).enough =
      true ↔ ReachesAsInt app env account neededWeight := by
  rw [enough_iff hone (keyWeights_distinct hstorable)]
  constructor
  · rintro ⟨now, later, heq, hcounts⟩
    exact ⟨now.length, by rwa [heq, List.take_left]⟩
  · rintro ⟨n, hcounts⟩
    exact ⟨_, _, (List.take_append_drop n env.signatures).symm, hcounts⟩

/-- What is enough as an `int` is enough. -/
theorem ReachesAsInt.reaches (h : ReachesAsInt app env account neededWeight) :
    Reaches app env account neededWeight := by
  obtain ⟨n, hne, hle⟩ := h
  have hsplit := List.take_append_drop n env.signatures
  refine ⟨?_, ?_⟩
  · obtain ⟨signer, hsigner, sig, hsig, hsigns⟩ := matching_ne_nil.mp hne
    exact matching_ne_nil.mpr ⟨signer, hsigner, sig, List.mem_of_mem_take hsig, hsigns⟩
  · have hmono : weightOf app env (keyWeights env account) (env.signatures.take n) ≤
        weightOf app env (keyWeights env account)
          (env.signatures.take n ++ env.signatures.drop n) := weightOf_mono _ _ _
    rw [hsplit] at hmono
    have hbmod : (weightOf app env (keyWeights env account) (env.signatures.take n) : ℤ).bmod
        (2 ^ 32) ≤ weightOf app env (keyWeights env account) (env.signatures.take n) := by
      rw [Int.bmod_def]
      split <;> omega
    calc neededWeight ≤ _ := hle
      _ ≤ (weightOf app env (keyWeights env account) (env.signatures.take n) : ℤ) := hbmod
      _ ≤ _ := Int.ofNat_le.mpr hmono

/-- Weights whose sum is an `int` are counted exactly. -/
theorem Reaches.asInt (h : Reaches app env account neededWeight)
    (hsmall : weightOf app env (keyWeights env account) env.signatures < 2 ^ 31) :
    ReachesAsInt app env account neededWeight := by
  refine ⟨env.signatures.length, ?_, ?_⟩
  · rw [List.take_length]
    exact h.1
  · rw [List.take_length, Int.bmod_eq_of_le (by omega) (by omega)]
    exact h.2

end Check

/-! ## The signatures that are used -/

/-- The check of an account matches the `i`th signature: it is the first one by one of the eligible
signers, and those before it were not found to be enough. -/
def Matches (check : AccountEntry × ℤ) (i : ℕ) : Prop :=
  (∃ signer ∈ keyWeights env check.1, (∃ sig, env.signatures[i]? = some sig ∧
    signs app env sig signer = true) ∧
      ∀ earlier ∈ env.signatures.take i, ¬ signs app env earlier signer = true) ∧
  ¬ ∃ n ≤ i, Counts app env (keyWeights env check.1) (env.signatures.take n) check.2

section Loop

variable {app env} {keyWeights : List Signer} {check : AccountEntry × ℤ}

/-- The signatures that the loop uses, from the `i`th on. -/
theorem mem_usedSignatures_iff
    (hone : ∀ sig, keyWeights.Pairwise fun a b =>
      ¬ (signs app env sig a = true ∧ signs app env sig b = true)) (needed : ℤ)
    (signatures : List DecoratedSignature) (i : ℕ) (total : ℤ) (j : ℕ) :
    j ∈ (checkSignatureLoop app env needed signatures i keyWeights total).usedSignatures ↔
      ∃ now sig later, signatures = now ++ sig :: later ∧ j = i + now.length ∧
        (checkSignatureLoop app env needed now i keyWeights total).enough = false ∧
          ∃ signer ∈ unmatched app env keyWeights now, signs app env sig signer = true := by
  induction signatures generalizing i keyWeights total with
  | nil => simp [checkSignatureLoop]
  | cons sig signatures ih =>
    have hnil : unmatched app env keyWeights [] = keyWeights := by simp [unmatched]
    have hcons (now : List DecoratedSignature) : unmatched app env keyWeights (sig :: now) =
        unmatched app env (keyWeights.eraseP (signs app env sig)) now := by
      rw [eraseP_eq_filter (hone sig), unmatched, unmatched, List.filter_filter]
      congr 1
      funext signer
      simp [Bool.and_comm]
    have hrest : ∀ sig', (keyWeights.eraseP (signs app env sig)).Pairwise fun a b =>
        ¬ (signs app env sig' a = true ∧ signs app env sig' b = true) :=
      fun sig' => (hone sig').sublist List.eraseP_sublist
    have hsplit (P : List DecoratedSignature → DecoratedSignature → Prop) :
        (∃ now sig' later, sig :: signatures = now ++ sig' :: later ∧ j = i + now.length ∧
          P now sig') ↔ (j = i ∧ P [] sig) ∨ ∃ now sig' later, signatures = now ++ sig' :: later ∧
            j = i + 1 + now.length ∧ P (sig :: now) sig' := by
      constructor
      · rintro ⟨now, sig', later, heq, hj, hP⟩
        cases now with
        | nil =>
          obtain ⟨rfl, -⟩ := List.cons.inj heq
          exact Or.inl ⟨hj, hP⟩
        | cons first now =>
          obtain ⟨rfl, rfl⟩ := List.cons.inj heq
          exact Or.inr ⟨now, sig', later, rfl, by rw [hj, List.length_cons]; omega, hP⟩
      · rintro (⟨rfl, hP⟩ | ⟨now, sig', later, rfl, hj, hP⟩)
        · exact ⟨[], sig, signatures, rfl, rfl, hP⟩
        · exact ⟨sig :: now, sig', later, rfl, by rw [hj, List.length_cons]; omega, hP⟩
    rw [hsplit]
    simp only [hnil, hcons]
    unfold checkSignatureLoop
    cases hfind : keyWeights.find? (signs app env sig) with
    | none =>
      have hnone : ¬ ∃ signer ∈ keyWeights, signs app env sig signer = true := by
        rintro ⟨signer, hmem, hsigns⟩
        exact List.find?_eq_none.mp hfind signer hmem hsigns
      have hkeep : keyWeights.eraseP (signs app env sig) = keyWeights :=
        List.eraseP_of_forall_not (List.find?_eq_none.mp hfind)
      dsimp only
      rw [ih hone, hkeep]
      exact ⟨Or.inr, fun h => h.resolve_left fun hfirst => hnone hfirst.2.2⟩
    | some signer =>
      have hsome : ∃ signer ∈ keyWeights, signs app env sig signer = true :=
        ⟨signer, List.mem_of_find?_eq_some hfind, List.find?_some hfind⟩
      dsimp only
      split_ifs with hle
      · simp [hsome]
      · rw [List.mem_cons, ih hrest]
        simp [hsome]

/-- The signatures that a check of the account uses are those that it matches. -/
theorem mem_usedSignatures_iff_matches (hone : OneKey app) (hstorable : StorableSigners check.1)
    (i : ℕ) :
    i ∈ (checkSignatureLoop app env check.2 env.signatures 0
      (TransactionFrame.keyWeights env check.1) 0).usedSignatures ↔ Matches app env check i := by
  have hdistinct : (TransactionFrame.keyWeights env check.1).Pairwise fun a b => a.pubKey ≠ b.pubKey :=
    keyWeights_distinct hstorable
  have henough (now : List DecoratedSignature) :
      (checkSignatureLoop app env check.2 now 0 (TransactionFrame.keyWeights env check.1) 0).enough =
        false ↔ ¬ ∃ n ≤ now.length,
          Counts app env (TransactionFrame.keyWeights env check.1) (now.take n) check.2 := by
    rw [← Bool.not_eq_true, enough_iff hone hdistinct]
    refine not_congr ⟨?_, ?_⟩
    · rintro ⟨first, later, rfl, hcounts⟩
      exact ⟨first.length, by simp, by rwa [List.take_left]⟩
    · rintro ⟨n, -, hcounts⟩
      exact ⟨_, _, (List.take_append_drop n now).symm, hcounts⟩
  have hmem (now : List DecoratedSignature) (signer : Signer) :
      signer ∈ unmatched app env (TransactionFrame.keyWeights env check.1) now ↔
        signer ∈ TransactionFrame.keyWeights env check.1 ∧
          ∀ earlier ∈ now, ¬ signs app env earlier signer = true := by
    simp [unmatched]
  rw [mem_usedSignatures_iff (pairwise_not_signs hone hdistinct)]
  unfold Matches
  constructor
  · rintro ⟨now, sig, later, heq, rfl, hnot, signer, hsigner, hsigns⟩
    have htake (n : ℕ) (hn : n ≤ now.length) : env.signatures.take n = now.take n := by
      rw [heq, List.take_append_of_le_length hn]
    rw [Nat.zero_add, htake _ le_rfl, List.take_length]
    refine ⟨⟨signer, ((hmem _ _).mp hsigner).1, ⟨sig, by simp [heq], hsigns⟩,
      ((hmem _ _).mp hsigner).2⟩, fun hcounts => (henough now).mp hnot ?_⟩
    obtain ⟨n, hn, hcounts⟩ := hcounts
    exact ⟨n, hn, by rwa [← htake n hn]⟩
  · rintro ⟨⟨signer, hsigner, ⟨sig, hsig, hsigns⟩, hearlier⟩, hnot⟩
    obtain ⟨hi, rfl⟩ := List.getElem?_eq_some_iff.mp hsig
    have hlen : (env.signatures.take i).length = i := List.length_take_of_le hi.le
    refine ⟨env.signatures.take i, env.signatures[i], env.signatures.drop (i + 1), ?_,
      by rw [hlen, Nat.zero_add], (henough _).mpr fun hcounts => hnot ?_, signer,
      (hmem _ _).mpr ⟨hsigner, hearlier⟩, hsigns⟩
    · rw [List.getElem_cons_drop, List.take_append_drop]
    · obtain ⟨n, hn, hcounts⟩ := hcounts
      rw [hlen] at hn
      exact ⟨n, hn, by rwa [List.take_take, min_eq_left hn] at hcounts⟩

end Loop

/-- The checks that were made for the transaction, since its signature tracker was reset. Other code
does not write to the tracker. -/
inductive Since : List (AccountEntry × ℤ) → LedgerState → Prop
  | reset {s s' : LedgerState} (h : resetSignatureTracker env s = .ok () s') : Since [] s'
  | check {checks : List (AccountEntry × ℤ)} {s s' : LedgerState} {account : AccountEntry}
      {neededWeight : ℤ} {r : SignatureCheck} (hs : Since checks s)
      (h : checkSignature app env account neededWeight s = .ok r s') :
      Since (checks ++ [(account, neededWeight)]) s'
  | other {checks : List (AccountEntry × ℤ)} {s s' : LedgerState} (hs : Since checks s)
      (h : s'.mUsedSignatures = s.mUsedSignatures) : Since checks s'

section Used

variable {app env} {checks : List (AccountEntry × ℤ)} {s : LedgerState}

theorem length_foldl_set (indices : List ℕ) (used : List Bool) :
    (indices.foldl (fun used i => used.set i true) used).length = used.length := by
  induction indices generalizing used with
  | nil => rfl
  | cons i indices ih => rw [List.foldl_cons, ih, List.length_set]

theorem getElem?_foldl_set (indices : List ℕ) (used : List Bool) (i : ℕ) :
    (indices.foldl (fun used i => used.set i true) used)[i]? = some true ↔
      used[i]? = some true ∨ i ∈ indices ∧ i < used.length := by
  induction indices generalizing used with
  | nil => simp
  | cons j indices ih =>
    rw [List.foldl_cons, ih, List.length_set, List.getElem?_set, List.mem_cons]
    by_cases hij : j = i
    · subst hij
      by_cases hlt : j < used.length
      · simp [hlt]
      · simp [hlt]
    · have hne : ¬ i = j := fun h => hij h.symm
      simp [hij, hne]

/-- What the tracker says. -/
theorem Since.marks (h : Since app env checks s) (hone : OneKey app)
    (hstorable : ∀ check ∈ checks, StorableSigners check.1) :
    s.mUsedSignatures.length = env.signatures.length ∧
      ∀ i < env.signatures.length,
        s.mUsedSignatures[i]? = some true ↔ ∃ check ∈ checks, Matches app env check i := by
  induction h with
  | @reset t t' hreset =>
    obtain rfl : _ = t' := (EStateM.Result.ok.inj hreset).2
    refine ⟨List.length_replicate, fun i hi => ?_⟩
    simp [List.getElem?_replicate]
  | @check checks t t' account neededWeight r _ hcheck ih =>
    obtain ⟨hlen, hmarks⟩ := ih fun check hmem => hstorable check (List.mem_append_left _ hmem)
    have hlast := hstorable (account, neededWeight)
      (List.mem_append_right _ List.mem_cons_self)
    have hmem : t'.mUsedSignatures = (checkSignatureLoop app env neededWeight env.signatures 0
        (keyWeights env account) 0).usedSignatures.foldl (fun used i => used.set i true)
          t.mUsedSignatures := by
      obtain rfl : _ = t' := (EStateM.Result.ok.inj hcheck).2
      rfl
    rw [hmem]
    refine ⟨(length_foldl_set _ _).trans hlen, fun i hi => ?_⟩
    rw [getElem?_foldl_set, hmarks i hi, hlen, mem_usedSignatures_iff_matches hone hlast]
    simp only [List.mem_append, List.mem_singleton, or_and_right, exists_or, exists_eq_left, hi,
      and_true]
  | other _ hsame ih =>
    rw [hsame]
    exact ih hstorable

/-- All signatures are used if each was matched by some check. -/
theorem checkAllSignaturesUsed_iff (h : Since app env checks s) (hone : OneKey app)
    (hstorable : ∀ check ∈ checks, StorableSigners check.1) :
    (∃ s', checkAllSignaturesUsed s = .ok () s') ↔
      ∀ i < env.signatures.length, ∃ check ∈ checks, Matches app env check i := by
  obtain ⟨hlen, hmarks⟩ := h.marks hone hstorable
  have haccepts : (∃ s', checkAllSignaturesUsed s = .ok () s') ↔
      s.mUsedSignatures.all id = true := by
    unfold checkAllSignaturesUsed
    show (∃ s', (if s.mUsedSignatures.all id then pure () else throw _ : LedgerM Unit) s = _) ↔ _
    by_cases hall : s.mUsedSignatures.all id = true
    · rw [if_pos hall]
      exact iff_of_true ⟨s, rfl⟩ hall
    · rw [if_neg hall]
      exact iff_of_false (fun ⟨_, hok⟩ => by cases hok) hall
  rw [haccepts, List.all_eq_true]
  constructor
  · intro hall i hi
    rw [← hlen] at hi
    have htrue := hall _ (List.getElem_mem hi)
    rw [← hmarks i (hlen ▸ hi), List.getElem?_eq_getElem hi]
    exact congrArg some htrue
  · intro hall used hused
    obtain ⟨i, hi, rfl⟩ := List.getElem_of_mem hused
    have htrue := (hmarks i (hlen ▸ hi)).mpr (hall i (hlen ▸ hi))
    rw [List.getElem?_eq_getElem hi] at htrue
    exact Option.some.inj htrue

end Used

/-! ## Main result -/

/-- Signatures are counted as they should be: the check passes if the exact weight reaches what is
needed, and all signatures are used if each was matched by some check. -/
structure CountsSignatures (account : AccountEntry) (neededWeight : ℤ) : Prop where
  enough : ∀ s r s', checkSignature app env account neededWeight s = .ok r s' →
    (r.enough = true ↔ Reaches app env account neededWeight)
  used : ∀ checks s, Since app env checks s → (∀ check ∈ checks, StorableSigners check.1) →
    ((∃ s', checkAllSignaturesUsed s = .ok () s') ↔
      ∀ i < env.signatures.length, ∃ check ∈ checks, Matches app env check i)

/-- **Main theorem.** The check always returns. It counts exactly, unless the exact weight is enough
and that of no number of first signatures is enough as an `int`. -/
theorem checkSignature_exact_iff (app : Application) (hone : OneKey app)
    (env : TransactionEnvelope) (account : AccountEntry) (hstorable : StorableSigners account)
    (neededWeight : ℤ) :
    (∀ s, ∃ r s', checkSignature app env account neededWeight s = .ok r s') ∧
    (CountsSignatures app env account neededWeight ↔
      (Reaches app env account neededWeight → ReachesAsInt app env account neededWeight)) := by
  have hreturns : ∀ s, ∃ s', checkSignature app env account neededWeight s = .ok
      (checkSignatureLoop app env neededWeight env.signatures 0 (keyWeights env account) 0) s' :=
    fun s => ⟨_, rfl⟩
  refine ⟨fun s => (hreturns s).elim fun s' h => ⟨_, s', h⟩, ?_⟩
  constructor
  · intro hcounts hreaches
    obtain ⟨s', h⟩ := hreturns {}
    exact (enough_iff_reachesAsInt hone hstorable).mp ((hcounts.enough _ _ _ h).mpr hreaches)
  · intro hexact
    refine ⟨fun s r s' h => ?_, fun checks s hs => checkAllSignaturesUsed_iff hs hone⟩
    obtain ⟨t, ht⟩ := hreturns s
    rw [ht] at h
    obtain ⟨rfl, -⟩ := EStateM.Result.ok.inj h
    rw [enough_iff_reachesAsInt hone hstorable]
    exact ⟨ReachesAsInt.reaches, hexact⟩

/-! ## Examples -/

section Examples

open LedgerManager (exampleBank)

theorem oneKey_exampleBank : OneKey exampleBank := by
  intro key key' signature _ h h'
  have hkey : (key == signature) = true := h
  have hkey' : (key' == signature) = true := h'
  rw [eq_of_beq hkey, eq_of_beq hkey']

/-- The account 5 with one more signer. -/
def withSigner (weight : ℕ) : AccountEntry where
  accountID := 5
  thresholds := { masterWeight := 1 }
  signers := [⟨7, weight, 0⟩]

theorem storable_withSigner {weight : ℕ} (hpos : 0 < weight) (hlt : weight < 2 ^ 32) :
    StorableSigners (withSigner weight) := by
  refine ⟨List.pairwise_singleton _ _, ?_, ?_, show 1 ≤ 20 by decide⟩
  · intro signer hsigner
    obtain rfl := List.mem_singleton.mp hsigner
    show (7 : ℕ) ≠ 5
    decide
  · intro signer hsigner
    obtain rfl := List.mem_singleton.mp hsigner
    exact ⟨hpos, hlt⟩

/-- A transaction that the signer 7 has signed twice, and the account once. -/
def signedThrice : TransactionEnvelope where
  tx := { sourceAccount := 5, fee := 0, seqNum := 1, operations := [] }
  signatures := [⟨7, 7⟩, ⟨7, 7⟩, ⟨5, 5⟩]
  operationFees := []

/-- A signer counts once. -/
theorem checkSignature_exact_signedThrice :
    (CountsSignatures exampleBank signedThrice (withSigner 2) 4 ∧
      ¬ Reaches exampleBank signedThrice (withSigner 2) 4) ∧
    CountsSignatures exampleBank signedThrice (withSigner 2) 3 := by
  have hstorable := storable_withSigner (show 0 < 2 by decide) (by decide)
  have hweight : weightOf exampleBank signedThrice (keyWeights signedThrice (withSigner 2))
      signedThrice.signatures = 3 := by decide
  have hnot : ¬ Reaches exampleBank signedThrice (withSigner 2) 4 := by
    intro hreaches
    have hle := hreaches.2
    rw [hweight] at hle
    exact absurd hle (by decide)
  refine ⟨⟨?_, hnot⟩, ?_⟩
  · exact (checkSignature_exact_iff exampleBank oneKey_exampleBank signedThrice (withSigner 2)
      hstorable 4).2.mpr fun hreaches => absurd hreaches hnot
  · exact (checkSignature_exact_iff exampleBank oneKey_exampleBank signedThrice (withSigner 2)
      hstorable 3).2.mpr fun hreaches => hreaches.asInt (by rw [hweight]; decide)

/-- A weight of 2^31 makes the total negative. -/
theorem checkSignature_overflow :
    StorableSigners (withSigner (2 ^ 31)) ∧
      Reaches exampleBank signedThrice (withSigner (2 ^ 31)) 1 ∧
      (∀ s, ∃ r s', checkSignature exampleBank signedThrice (withSigner (2 ^ 31)) 1 s = .ok r s' ∧
        r.enough = false) ∧
      ¬ CountsSignatures exampleBank signedThrice (withSigner (2 ^ 31)) 1 := by
  have hreaches : Reaches exampleBank signedThrice (withSigner (2 ^ 31)) 1 := by
    refine ⟨by decide, ?_⟩
    have hweight : weightOf exampleBank signedThrice (keyWeights signedThrice
        (withSigner (2 ^ 31))) signedThrice.signatures = 2 ^ 31 + 1 := by decide +kernel
    rw [hweight]
    decide
  have hfails : ∀ s, ∃ r s', checkSignature exampleBank signedThrice (withSigner (2 ^ 31)) 1 s =
      .ok r s' ∧ r.enough = false := fun s => ⟨_, _, rfl, by decide +kernel⟩
  refine ⟨storable_withSigner (by decide) (by decide), hreaches, hfails, fun hcounts => ?_⟩
  obtain ⟨r, s', hr, hfalse⟩ := hfails {}
  have htrue := (hcounts.enough _ _ _ hr).mpr hreaches
  rw [hfalse] at htrue
  cases htrue

end Examples

end SmartCore.Transactions
