import SmartCore.Ledger.Rows
import SmartCore.Transactions.Program

/-!
# What set options stores

`SET_OPTIONS` changes the account of the source in memory and stores it. Where it sets a signer, the
signers in memory go over those of the row: the row has the same keys and weights afterwards, and of
a key that it had with the same weight it keeps the type.
-/

namespace SmartCore.Transactions

open SmartCore.Ledger

variable {α : Type} {s s₀ t : LedgerState} {d : ℕ} {f : AccountFrame}

/-! ## Signers of rows -/

/-- What counts of a signer when signatures are checked. -/
def weightedKey (signer : Signer) : AccountID × ℕ := (signer.pubKey, signer.weight)

theorem map_weightedKey_mergeSigners (signers old : List Signer) :
    (AccountFrame.mergeSigners signers old).map weightedKey = signers.map weightedKey := by
  induction signers generalizing old with
  | nil => rfl
  | cons signer signers ih =>
    rw [AccountFrame.mergeSigners]
    split
    · rw [List.map_cons, ih, List.map_cons]
    · rename_i o rest _
      split
      · rename_i hkey
        rw [List.map_cons, ih, List.map_cons]
        congr 1
        split
        · rfl
        · rename_i hweight
          exact Prod.ext hkey.symm (not_not.mp hweight).symm
      · rw [List.map_cons, ih, List.map_cons]

/-- A signer that is stored is in the row, unless that has its key with its weight. -/
theorem mem_mergeSigners_of_mem {signers old : List Signer} {signer : Signer}
    (h : signer ∈ signers) : signer ∈ AccountFrame.mergeSigners signers old ∨
      ∃ o ∈ old, o ∈ AccountFrame.mergeSigners signers old ∧ weightedKey o = weightedKey signer := by
  induction signers generalizing old with
  | nil => cases h
  | cons first signers ih =>
    have hrest (rest : List Signer) (hsub : rest ⊆ old) (kept : Signer) (hmem : signer ∈ signers) :
        signer ∈ kept :: AccountFrame.mergeSigners signers rest ∨ ∃ o ∈ old,
          o ∈ kept :: AccountFrame.mergeSigners signers rest ∧
            weightedKey o = weightedKey signer := by
      rcases @ih rest hmem with hin | ⟨o, ho, hin, hkey⟩
      · exact Or.inl (List.mem_cons_of_mem _ hin)
      · exact Or.inr ⟨o, hsub ho, List.mem_cons_of_mem _ hin, hkey⟩
    have hdrop := List.dropWhile_sublist (l := old) fun o => decide (o.pubKey < first.pubKey)
    rw [AccountFrame.mergeSigners]
    split
    · rcases List.mem_cons.mp h with rfl | h
      · exact Or.inl List.mem_cons_self
      · exact hrest [] (List.nil_subset _) first h
    · rename_i o rest heq
      rw [heq] at hdrop
      split
      · rename_i hkey
        rcases List.mem_cons.mp h with rfl | h
        · split
          · exact Or.inl List.mem_cons_self
          · rename_i hweight
            exact Or.inr ⟨o, hdrop.subset List.mem_cons_self, List.mem_cons_self,
              Prod.ext hkey.symm (not_not.mp hweight).symm⟩
        · exact hrest rest (fun x hx => hdrop.subset (List.mem_cons_of_mem _ hx)) _ h
      · rcases List.mem_cons.mp h with rfl | h
        · exact Or.inl List.mem_cons_self
        · exact hrest (o :: rest) hdrop.subset first h

/-! ## The source in memory -/

/-- Nothing has changed since `s₀` but the source in memory, which is like that. -/
structure SourceIs (s₀ : LedgerState) (P : AccountFrame → Prop) (t : LedgerState) : Prop where
  db : t.db = s₀.db
  mUsedSigners : t.mUsedSigners = s₀.mUsedSigners
  source : ∃ f, t.mSourceAccount = some f ∧ P f

variable {P Q : AccountFrame → Prop}

theorem SourceIs.mono (h : SourceIs s₀ P s) (hPQ : ∀ f, P f → Q f) : SourceIs s₀ Q s := by
  obtain ⟨f, hf, hP⟩ := h.source
  exact ⟨h.db, h.mUsedSigners, f, hf, hPQ f hP⟩

theorem wp_getSourceAccount (h : SourceIs s₀ P s) :
    wp getSourceAccount (fun f t => t = s ∧ s.mSourceAccount = some f ∧ P f) (fun _ _ => True)
      s := by
  obtain ⟨f, hf, hP⟩ := h.source
  simp only [getSourceAccount, wp_bind, wp_get, wp_deref]
  refine ⟨fun g hg => ?_, fun _ => trivial⟩
  obtain rfl := Option.some.inj (hf.symm.trans hg)
  exact ⟨trivial, hf, hP⟩

theorem SourceIs.set (h : SourceIs s₀ P s) {g : AccountFrame} (hQ : Q g) :
    SourceIs s₀ Q { s with mSourceAccount := some g } :=
  ⟨h.db, h.mUsedSigners, g, rfl, hQ⟩

theorem wp_modifySourceAccount (h : SourceIs s₀ P s) {change : AccountEntry → AccountEntry}
    (hQ : ∀ f, P f → Q { f with mAccountEntry := change f.mAccountEntry }) :
    wp (modifySourceAccount change) (fun _ t => SourceIs s₀ Q t) (fun _ _ => True) s := by
  rw [modifySourceAccount, wp_bind]
  refine wp_mono (wp_getSourceAccount h) (fun f t ht => ?_) fun _ _ he => he
  obtain ⟨rfl, -, hP⟩ := ht
  exact h.set (hQ f hP)

/-- The same account as `f`, with the same type. -/
structure Owned (f g : AccountFrame) : Prop where
  id : g.getID = f.getID
  type : g.mAccountEntry.accountType = f.mAccountEntry.accountType

/-- And with the same signers. -/
structure Unsigned (f g : AccountFrame) : Prop extends Owned f g where
  signers : g.mAccountEntry.signers = f.mAccountEntry.signers
  mUpdateSigners : g.mUpdateSigners = f.mUpdateSigners

theorem Unsigned.refl (f : AccountFrame) : Unsigned f f := ⟨⟨rfl, rfl⟩, rfl, rfl⟩

theorem wp_addNumEntries (f : AccountFrame) (count : ℤ) :
    wp (f.addNumEntries count) (fun o t => t = s ∧ ∀ g ∈ o, Unsigned f g) (fun _ _ => True) s := by
  simp only [AccountFrame.addNumEntries, getMinBalance, wp_ite, wp_throw, wp_bind, wp_get, wp_pure]
  refine ⟨fun _ => trivial, fun _ => ⟨fun _ => ⟨trivial, fun g hg => ?_⟩,
    fun _ => ⟨trivial, fun g hg => ?_⟩⟩⟩
  · cases hg
  · cases hg
    exact ⟨⟨rfl, rfl⟩, rfl, rfl⟩

/-- The signers after one was set: those of before, by key and type, and the new one if there was
none with its key. -/
def SignersOf (old : List Signer) (signer : Signer) (signers : List Signer) : Prop :=
  ∀ σ ∈ signers, (∃ o ∈ old, o.pubKey = σ.pubKey ∧ o.signerType = σ.signerType) ∨
    σ = signer ∧ signer.weight ≠ 0 ∧ ∀ o ∈ old, o.pubKey ≠ signer.pubKey

open SetOptionsOpFrame

theorem wp_addSigner {signer : Signer} (hweight : signer.weight ≠ 0)
    (h : SourceIs s₀ (Unsigned f) s) :
    wp (addSigner signer) (fun _ t => SourceIs s₀ (fun g => Owned f g ∧
      SignersOf f.mAccountEntry.signers signer g.mAccountEntry.signers) t) (fun _ _ => True) s := by
  rw [addSigner, wp_bind]
  refine wp_mono (wp_getSourceAccount h) (fun source t ht => ?_) fun _ _ he => he
  obtain ⟨rfl, -, hsource⟩ := ht
  rw [wp_ite]
  refine ⟨fun _ => wp_modifySourceAccount h fun g hg => ⟨⟨hg.id, hg.type⟩, fun σ hσ => ?_⟩,
    fun hnone => ?_⟩
  · -- the weight changes, but neither the key nor the type
    obtain ⟨o, ho, rfl⟩ := List.mem_map.mp hσ
    rw [hg.signers] at ho
    refine Or.inl ⟨o, ho, ?_⟩
    split <;> exact ⟨rfl, rfl⟩
  · have hnew : ∀ o ∈ f.mAccountEntry.signers, o.pubKey ≠ signer.pubKey := by
      rw [hsource.signers] at hnone
      simpa using hnone
    rw [wp_bind, wp_failIf]
    refine ⟨fun _ => trivial, fun _ => ?_⟩
    rw [wp_bind]
    -- the count is not to be evaluated
    generalize (1 : ℤ) = count
    refine wp_mono (wp_addNumEntries source count) (fun o u hu => ?_) fun _ _ he => he
    obtain ⟨rfl, ho⟩ := hu
    cases o with
    | none => exact trivial
    | some g =>
      have hg := ho g rfl
      have hset : SourceIs s₀ (Unsigned f) { u with mSourceAccount := some g } :=
        h.set ⟨⟨hg.id.trans hsource.id, hg.type.trans hsource.type⟩,
          hg.signers.trans hsource.signers, hg.mUpdateSigners.trans hsource.mUpdateSigners⟩
      rw [wp_bind, setSourceAccount, wp_modify]
      refine wp_modifySourceAccount hset fun g' hg' => ⟨⟨hg'.id, hg'.type⟩, fun σ hσ => ?_⟩
      rcases List.mem_append.mp hσ with hσ | hσ
      · rw [hg'.signers] at hσ
        exact Or.inl ⟨σ, hσ, rfl, rfl⟩
      · exact Or.inr ⟨List.mem_singleton.mp hσ, hweight, hnew⟩

theorem wp_deleteSigner {pubKey : AccountID} {kept signers : List Signer}
    (h : SourceIs s₀ (Owned f) s) :
    wp (deleteSigner pubKey kept signers) (fun _ t => SourceIs s₀ (fun g => Owned f g ∧
      ∀ σ ∈ g.mAccountEntry.signers, σ ∈ kept ++ signers) t) (fun _ _ => True) s := by
  induction signers generalizing kept s with
  | nil =>
    refine wp_modifySourceAccount h fun g hg => ⟨⟨hg.id, hg.type⟩, fun σ hσ => ?_⟩
    rwa [List.append_nil]
  | cons old signers ih =>
    rw [deleteSigner, wp_ite]
    refine ⟨fun _ => ?_, fun _ => ?_⟩
    · rw [wp_bind]
      refine wp_mono (wp_getSourceAccount h) (fun source t ht => ?_) fun _ _ he => he
      obtain ⟨rfl, -, hsource⟩ := ht
      rw [wp_bind]
      refine wp_mono (wp_addNumEntries source (-1)) (fun o u hu => ?_) fun _ _ he => he
      obtain ⟨rfl, ho⟩ := hu
      rw [wp_bind, wp_deref]
      refine ⟨fun g hg => ?_, fun _ => trivial⟩
      have howned := ho g hg
      rw [wp_bind, setSourceAccount, wp_modify]
      refine wp_mono (ih (h.set (g := g) ⟨howned.id.trans hsource.id,
        howned.type.trans hsource.type⟩)) (fun _ v hv => hv.mono fun g hg => ⟨hg.1, ?_⟩)
        fun _ _ he => he
      intro σ hσ
      have hmem := hg.2 σ hσ
      simp only [List.mem_append, List.mem_cons] at hmem ⊢
      tauto
    · refine wp_mono (ih h) (fun _ v hv => hv.mono fun g hg => ⟨hg.1, fun σ hσ => ?_⟩)
        fun _ _ he => he
      simpa using hg.2 σ hσ

theorem wp_setSigner {signer : Signer} (h : SourceIs s₀ (Unsigned f) s) :
    wp (setSigner signer) (fun _ t => SourceIs s₀ (fun g => Owned f g ∧
        SignersOf f.mAccountEntry.signers signer g.mAccountEntry.signers ∧
          g.mUpdateSigners = true) t ∧ signerTypeAllowed f s₀.mUsedSigners signer = true)
      (fun _ _ => True) s := by
  rw [setSigner, wp_bind]
  refine wp_mono (wp_getSourceAccount h) (fun source t ht => ?_) fun _ _ he => he
  obtain ⟨rfl, -, hsource⟩ := ht
  have hlast : ∀ u, SourceIs s₀ (fun g => Owned f g ∧
      SignersOf f.mAccountEntry.signers signer g.mAccountEntry.signers) u →
      wp (do
        let source ← getSourceAccount
        setSourceAccount source.setUpdateSigners) (fun _ t => SourceIs s₀ (fun g => Owned f g ∧
          SignersOf f.mAccountEntry.signers signer g.mAccountEntry.signers ∧
            g.mUpdateSigners = true) t) (fun _ _ => True) u := by
    intro u hu
    rw [wp_bind]
    refine wp_mono (wp_getSourceAccount hu) (fun g v hv => ?_) fun _ _ he => he
    obtain ⟨rfl, -, howned, hsigners⟩ := hv
    refine hu.set ⟨⟨howned.id, howned.type⟩, fun σ hσ => hsigners σ ?_, rfl⟩
    exact (List.perm_insertionSort _ _).mem_iff.mp hσ
  simp only [wp_bind, wp_get, wp_failIf]
  refine ⟨fun _ => trivial, fun hallowed => ?_⟩
  have hallowed : signerTypeAllowed f s₀.mUsedSigners signer = true := by
    rw [← h.mUsedSigners]
    have hsame : signerTypeAllowed f t.mUsedSigners signer =
        signerTypeAllowed source t.mUsedSigners signer := by
      rw [signerTypeAllowed, signerTypeAllowed, hsource.type, hsource.id]
    rw [hsame]
    simpa using hallowed
  rw [wp_ite]
  refine ⟨fun hweight => ?_, fun _ => ?_⟩ <;> rw [wp_bind]
  · refine wp_mono (wp_addSigner hweight h) (fun _ u hu => ?_) fun _ _ he => he
    exact wp_mono (hlast u hu) (fun _ v hv => ⟨hv, hallowed⟩) fun _ _ he => he
  · refine wp_mono (wp_deleteSigner (h.mono fun g hg => hg.toOwned)) (fun _ u hu => ?_)
      fun _ _ he => he
    refine wp_mono (hlast u (hu.mono fun g hg => ⟨hg.1, fun σ hσ => Or.inl ?_⟩))
      (fun _ v hv => ⟨hv, hallowed⟩) fun _ _ he => he
    have hmem := hg.2 σ hσ
    rw [List.nil_append, hsource.signers] at hmem
    exact ⟨σ, hmem, rfl, rfl⟩

/-! ## The operation -/

/-- What the operation does with the source `f`: it stores `g`. -/
structure OptionsSet (op : SetOptionsOp) (f g : AccountFrame) (s t : LedgerState) : Prop where
  owned : Owned f g
  stored : g.Wrote s t
  source : ∃ g', t.mSourceAccount = some g' ∧ g'.mAccountEntry = g.mAccountEntry
  unsigned : op.signer = none → Unsigned f g
  signed : ∀ signer ∈ op.signer, g.mUpdateSigners = true ∧
    SignersOf f.mAccountEntry.signers signer g.mAccountEntry.signers ∧
      signerTypeAllowed f s.mUsedSigners signer = true

theorem wp_storeSourceAccount (h : SourceIs s₀ P s) :
    wp (storeSourceAccount d) (fun _ t => ∃ g, P g ∧ g.Wrote s₀ t ∧
      ∃ g', t.mSourceAccount = some g' ∧ g'.mAccountEntry = g.mAccountEntry) (fun _ _ => True)
      s := by
  rw [storeSourceAccount, wp_bind]
  refine wp_mono (wp_getSourceAccount h) (fun g t ht => ?_) fun _ _ he => he
  obtain ⟨rfl, -, hP⟩ := ht
  rw [wp_bind]
  refine wp_mono g.wp_storeChange_row (fun g' u hu => ?_) fun _ _ _ => trivial
  obtain ⟨hwrote, lastModified, rfl⟩ := hu
  have hwrote : g.Wrote s₀ u := by
    refine ⟨hwrote.valid, ?_, hwrote.trustlines.trans (congrArg _ h.db),
      hwrote.offers.trans (congrArg _ h.db)⟩
    rw [← h.db]
    exact hwrote.row
  exact ⟨g, hP, ⟨hwrote.valid, hwrote.row, hwrote.trustlines, hwrote.offers⟩, _, rfl, rfl⟩

theorem wp_setOptions_doCheckValid {op : SetOptionsOp} (sourceID : AccountID) :
    wp (SetOptionsOpFrame.doCheckValid sourceID op) (fun _ t => t = s) (fun _ _ => True) s := by
  simp only [SetOptionsOpFrame.doCheckValid, checkThreshold, wp_bind, wp_failIf]
  simp

/-- A change of the source that leaves its key, its type and its signers alone. -/
theorem wp_modifySourceAccount_unsigned (h : SourceIs s₀ (Unsigned f) s)
    {change : AccountEntry → AccountEntry}
    (hchange : ∀ a, (change a).accountID = a.accountID ∧
      (change a).accountType = a.accountType ∧ (change a).signers = a.signers) :
    wp (modifySourceAccount change) (fun _ t => SourceIs s₀ (Unsigned f) t) (fun _ _ => True)
      s := by
  refine wp_modifySourceAccount h fun g hg => ?_
  obtain ⟨hid, htype, hsigners⟩ := hchange g.mAccountEntry
  exact ⟨⟨hid.trans hg.id, htype.trans hg.type⟩, hsigners.trans hg.signers, hg.mUpdateSigners⟩

theorem wp_cantChange_seq (h : SourceIs s₀ P s) {flags : Option ℕ}
    {rest : LedgerM SetOptionsResult} {R : SetOptionsResult → LedgerState → Prop}
    (hrest : wp rest R (fun _ _ => True) s) :
    wp (do
      let source ← getSourceAccount
      failIf (cantChange source flags) (result .SET_OPTIONS_CANT_CHANGE)
      rest) R (fun _ _ => True) s := by
  rw [wp_bind]
  refine wp_mono (wp_getSourceAccount h) (fun g t ht => ?_) fun _ _ he => he
  obtain ⟨rfl, -, -⟩ := ht
  simp only [wp_bind, wp_failIf]
  exact ⟨fun _ => trivial, fun _ => hrest⟩

theorem wp_storeSourceAccount_unsigned {op : SetOptionsOp} (hsigner : op.signer = none)
    (h : SourceIs s₀ (Unsigned f) s) :
    wp (storeSourceAccount d) (fun _ t => ∃ g, OptionsSet op f g s₀ t) (fun _ _ => True) s := by
  refine wp_mono (wp_storeSourceAccount h) (fun _ t ht => ?_) fun _ _ he => he
  obtain ⟨g, hg, hstored, hsource⟩ := ht
  refine ⟨g, hg.toOwned, hstored, hsource, fun _ => hg, fun signer hmem => ?_⟩
  rw [hsigner] at hmem
  cases hmem

theorem wp_storeSourceAccount_signed {op : SetOptionsOp} {signer : Signer}
    (hsigner : op.signer = some signer)
    (hallowed : signerTypeAllowed f s₀.mUsedSigners signer = true)
    (h : SourceIs s₀ (fun g => Owned f g ∧
      SignersOf f.mAccountEntry.signers signer g.mAccountEntry.signers ∧
        g.mUpdateSigners = true) s) :
    wp (storeSourceAccount d) (fun _ t => ∃ g, OptionsSet op f g s₀ t) (fun _ _ => True) s := by
  refine wp_mono (wp_storeSourceAccount h) (fun _ t ht => ?_) fun _ _ he => he
  obtain ⟨g, ⟨howned, hsigners, hupdate⟩, hstored, hsource⟩ := ht
  refine ⟨g, howned, hstored, hsource, fun hnone => ?_, fun signer' hmem => ?_⟩
  · rw [hsigner] at hnone
    cases hnone
  · obtain rfl := Option.some.inj (hsigner.symm.trans hmem)
    exact ⟨hupdate, hsigners, hallowed⟩

/-- **Set options** stores the source as it has changed it. -/
theorem wp_setOptions_doApply {op : SetOptionsOp} (hf : s.mSourceAccount = some f) :
    wp (SetOptionsOpFrame.doApply d op) (fun _ t => ∃ g, OptionsSet op f g s t)
      (fun _ _ => True) s := by
  have hstart : SourceIs s (Unsigned f) s := ⟨rfl, rfl, f, hf, .refl f⟩
  have hrest : ∀ {u}, SourceIs s (Unsigned f) u →
      wp (SetOptionsOpFrame.doApply d { op with inflationDest := none })
        (fun _ t => ∃ g, OptionsSet op f g s t) (fun _ _ => True) u := by
    intro u hu
    rw [SetOptionsOpFrame.doApply]
    refine wp_cantChange_seq hu ?_
    rw [wp_bind]
    refine wp_mono (wp_modifySourceAccount_unsigned hu fun _ => ⟨rfl, rfl, rfl⟩)
      (fun _ v hv => wp_cantChange_seq hv ?_) fun _ _ he => he
    rw [wp_bind]
    refine wp_mono (wp_modifySourceAccount_unsigned hv fun _ => ⟨rfl, rfl, rfl⟩)
      (fun _ w hw => ?_) fun _ _ he => he
    rw [wp_bind]
    refine wp_mono (wp_modifySourceAccount_unsigned hw fun _ => ⟨rfl, rfl, rfl⟩)
      (fun _ x hx => ?_) fun _ _ he => he
    -- the last steps: the signer, if there is one, and the store
    cases hsigner : op.signer with
    | none =>
      simp only [wp_bind, wp_pure]
      exact wp_storeSourceAccount_unsigned hsigner hx
    | some signer =>
      simp only [wp_bind, wp_pure]
      exact wp_mono (wp_setSigner hx)
        (fun _ y hy => wp_storeSourceAccount_signed hsigner hy.2 hy.1) fun _ _ he => he
  rw [SetOptionsOpFrame.doApply]
  cases op.inflationDest with
  | none => exact hrest hstart
  | some inflationID =>
    dsimp only
    rw [wp_bind]
    refine wp_mono (wp_and (AccountFrame.wpLoaded_loadAccount d inflationID s)
      (WpElsewhere.loadAccount d inflationID s)) (fun o u hu => ?_) fun _ _ _ => trivial
    have hloaded : SourceIs s (Unsigned f) u :=
      ⟨hu.1.db, hu.2.memory.mUsedSigners, f, hu.2.mSourceAccount.trans hf, .refl f⟩
    rw [wp_bind, wp_failIf]
    refine ⟨fun _ => trivial, fun _ => ?_⟩
    rw [wp_bind]
    exact wp_mono (wp_modifySourceAccount_unsigned hloaded fun _ => ⟨rfl, rfl, rfl⟩)
      (fun _ v hv => hrest hv) fun _ _ he => he

/-- What an operation that sets options does, checked and applied. -/
theorem optionsSet_of_programs {app : Application} {env : TransactionEnvelope} {op : Operation}
    {fee : Option OperationFee} {options : SetOptionsOp} {u : LedgerState} {r : OperationResultTr}
    (hbody : op.body = .SET_OPTIONS options) (hf : s.mSourceAccount = some f)
    (hvalid : OperationFrame.doCheckValid app env op fee s = .ok () u)
    (happly : OperationFrame.doApply app env d op fee u = .ok r t) :
    ∃ g, OptionsSet options f g s t := by
  rw [OperationFrame.doCheckValid, hbody] at hvalid
  obtain rfl : u = s := of_wp_ok (Q := fun _ t => t = s)
    (wp_setOptions_doCheckValid (OperationFrame.getSourceID env op)) hvalid
  rw [OperationFrame.doApply, hbody] at happly
  obtain ⟨_, v, happly, hpure⟩ := bind_eq_ok.mp happly
  cases hpure
  exact of_wp_ok (wp_setOptions_doApply hf) happly

end SmartCore.Transactions
