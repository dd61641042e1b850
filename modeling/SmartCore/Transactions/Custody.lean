import SmartCore.Transactions.Program

/-!
# What programs keep

A program that starts `InCustody` ends in custody, also where it stops with a fault: every account
in the tables, in the cache and in hand is one that the custody allows. It leaves the memory of the
transaction as it is, and of the table of reversed payments it only adds to.
-/

namespace SmartCore.Transactions

open SmartCore.Ledger

variable {c : Custody} {s s' t : LedgerState} {α β : Type}

/-! ## States in custody -/

/-- Every account is one that the custody allows, in the row of its key. -/
structure InCustody (c : Custody) (s : LedgerState) : Prop where
  rows : ∀ (id : AccountID) (row : Row AccountEntry), s.db.accounts[id]? = some row →
    row.entry.accountID = id ∧ c.HoldsEntry row.entry
  free : ∀ id : AccountID, s.db.accounts[id]? = none → c.Deletable id
  cached : ∀ k lastModified a, (k, some ⟨lastModified, .account a⟩) ∈ s.mEntryCache →
    k = .account a.accountID ∧ c.HoldsEntry a
  source : ∀ f, s.mSourceAccount = some f → c.HoldsSource f

/-- Only payments that may be reversed are marked, and no mark is taken back. -/
structure Marks (c : Custody) (s s' : LedgerState) : Prop where
  kept : ∀ rID ∈ s.db.reversedPayment, rID ∈ s'.db.reversedPayment
  new : ∀ rID ∈ s'.db.reversedPayment, rID ∈ s.db.reversedPayment ∨ c.reversible rID

/-- What a program leaves behind, however it ends. -/
structure Kept (c : Custody) (s s' : LedgerState) : Prop where
  custody : InCustody c s'
  memory : SameMemory s s'
  marks : Marks c s s'

theorem Marks.refl (s : LedgerState) : Marks c s s := ⟨fun _ h => h, fun _ h => Or.inl h⟩

theorem Marks.of_eq (h : s'.db.reversedPayment = s.db.reversedPayment) : Marks c s s' := by
  constructor
  · rw [h]
    exact fun _ h => h
  · rw [h]
    exact fun _ h => Or.inl h

theorem Marks.trans (h : Marks c s t) (h' : Marks c t s') : Marks c s s' := by
  refine ⟨fun rID hr => h'.kept rID (h.kept rID hr), fun rID hr => ?_⟩
  rcases h'.new rID hr with hr | hr
  · exact h.new rID hr
  · exact Or.inr hr

theorem Kept.refl (h : InCustody c s) : Kept c s s := ⟨h, .refl s, .refl s⟩

theorem Kept.trans (h : Kept c s t) (h' : Kept c t s') : Kept c s s' :=
  ⟨h'.custody, h.memory.trans h'.memory, h.marks.trans h'.marks⟩

/-- Code that keeps what it finds, and returns what satisfies the predicate. -/
def KeepsCustody (c : Custody) (x : LedgerM α) (R : α → Prop) : Prop :=
  ∀ s, InCustody c s → wp x (fun a s' => Kept c s s' ∧ R a) (fun _ s' => Kept c s s') s

/-! ## Statements -/

/-- Accounts change neither in the table nor in the cache. -/
theorem InCustody.of_accounts (h : InCustody c s) (haccounts : s'.db.accounts = s.db.accounts)
    (hcache : ∀ p ∈ s'.mEntryCache, p ∈ s.mEntryCache)
    (hsource : s'.mSourceAccount = s.mSourceAccount) : InCustody c s' where
  rows := by
    rw [haccounts]
    exact h.rows
  free := by
    rw [haccounts]
    exact h.free
  cached k lastModified a hmem := h.cached k lastModified a (hcache _ hmem)
  source := by
    rw [hsource]
    exact h.source

/-- A row, as it is read. -/
theorem holds_select (hrows : ∀ (id : AccountID) (row : Row AccountEntry),
      s.db.accounts[id]? = some row → row.entry.accountID = id ∧ c.HoldsEntry row.entry)
    {k : LedgerKey} {lastModified : ℕ} {a : AccountEntry}
    (hrow : s.db.select k = some ⟨lastModified, .account a⟩) :
    k = .account a.accountID ∧ c.HoldsEntry a := by
  cases k with
  | account id =>
    obtain ⟨row, hr, heq⟩ := Option.map_eq_some_iff.mp hrow
    cases heq
    obtain ⟨hid, htype, hsigners⟩ := hrows id row hr
    refine ⟨congrArg LedgerKey.account hid.symm, htype, fun s hs => hsigners s ?_⟩
    -- the signers may be left out
    dsimp only at hs
    split at hs
    · exact hs
    · cases hs
  | trustLine id asset =>
    obtain ⟨row, -, heq⟩ := Option.map_eq_some_iff.mp hrow
    cases heq
  | _ => cases hrow

/-- What is in a coherent cache is in the rows. -/
theorem InCustody.of_coherent (hs : Coherent s)
    (hrows : ∀ (id : AccountID) (row : Row AccountEntry),
      s.db.accounts[id]? = some row → row.entry.accountID = id ∧ c.HoldsEntry row.entry)
    (hfree : ∀ id : AccountID, s.db.accounts[id]? = none → c.Deletable id)
    (hsource : ∀ f, s.mSourceAccount = some f → c.HoldsSource f) : InCustody c s :=
  ⟨hrows, hfree, fun k _ _ hmem => holds_select hrows (hs k _ hmem).symm, hsource⟩

theorem keepsCustody_of_loaded {d : ℕ} {x : LedgerM α} (hx : WpLoaded d x) (hx' : WpElsewhere x) :
    KeepsCustody c x fun _ => True := by
  intro s h
  have hkeep : ∀ s', Loaded d s s' → Elsewhere s s' → Kept c s s' := by
    intro s' hl he
    refine ⟨⟨?_, ?_, ?_, ?_⟩, he.memory, .of_eq he.reversedPayment⟩
    · rw [he.accounts]
      exact h.rows
    · rw [he.accounts]
      exact h.free
    · intro k lastModified a hmem
      rcases hl.cache k _ hmem with hmem | heq
      · exact h.cached k lastModified a hmem
      · exact holds_select h.rows heq.symm
    · rw [he.mSourceAccount]
      exact h.source
  exact wp_mono (wp_and (hx s) (hx' s)) (fun _ s' hs => ⟨hkeep s' hs.1 hs.2, trivial⟩)
    fun _ s' hs => hkeep s' hs.1.2 hs.2

/-! ## Accounts -/

theorem InCustody.insert (h : InCustody c s) {id : AccountID} {row : Row AccountEntry}
    (hid : row.entry.accountID = id) (hrow : c.HoldsEntry row.entry)
    (haccounts : s'.db.accounts = s.db.accounts.insert id row)
    (hcache : ∀ p ∈ s'.mEntryCache, p ∈ s.mEntryCache)
    (hsource : s'.mSourceAccount = s.mSourceAccount) : InCustody c s' where
  rows id' row' hrow' := by
    rw [haccounts, Std.ExtTreeMap.getElem?_insert] at hrow'
    split at hrow'
    · rename_i heq
      cases hrow'
      rw [← compare_eq_iff_eq.mp heq]
      exact ⟨hid, hrow⟩
    · exact h.rows id' row' hrow'
  free id' hnone := by
    rw [haccounts, Std.ExtTreeMap.getElem?_insert] at hnone
    split at hnone
    · cases hnone
    · exact h.free id' hnone
  cached k lastModified a hmem := h.cached k lastModified a (hcache _ hmem)
  source := by
    rw [hsource]
    exact h.source

theorem InCustody.erase (h : InCustody c s) {id : AccountID} (hid : c.Deletable id)
    (haccounts : s'.db.accounts = s.db.accounts.erase id)
    (hcache : ∀ p ∈ s'.mEntryCache, p ∈ s.mEntryCache)
    (hsource : s'.mSourceAccount = s.mSourceAccount) : InCustody c s' where
  rows id' row' hrow' := by
    rw [haccounts, Std.ExtTreeMap.getElem?_erase] at hrow'
    split at hrow'
    · cases hrow'
    · exact h.rows id' row' hrow'
  free id' hnone := by
    rw [haccounts, Std.ExtTreeMap.getElem?_erase] at hnone
    split at hnone
    · rename_i heq
      rw [← compare_eq_iff_eq.mp heq]
      exact hid
    · exact h.free id' hnone
  cached k lastModified a hmem := h.cached k lastModified a (hcache _ hmem)
  source := by
    rw [hsource]
    exact h.source

/-- A signer that is stored is one of the frame or one of the row. -/
theorem mem_mergeSigners {signers old : List Signer} {o : Signer}
    (h : o ∈ AccountFrame.mergeSigners signers old) : o ∈ signers ∨ o ∈ old := by
  induction signers generalizing old with
  | nil => cases h
  | cons s signers ih =>
    rw [AccountFrame.mergeSigners] at h
    have hsub : ∀ {rest : List Signer}, rest ⊆ old → o ∈ AccountFrame.mergeSigners signers rest →
        o ∈ s :: signers ∨ o ∈ old := by
      intro rest hrest ho
      exact (ih ho).imp (List.mem_cons_of_mem _) fun ho => hrest ho
    have hdrop := List.dropWhile_sublist (l := old) fun o => decide (o.pubKey < s.pubKey)
    split at h
    · rcases List.mem_cons.mp h with rfl | h
      · exact Or.inl List.mem_cons_self
      · exact hsub (List.nil_subset _) h
    · rename_i o' rest heq
      rw [heq] at hdrop
      have ho' : o' ∈ old := hdrop.subset List.mem_cons_self
      split at h
      · rcases List.mem_cons.mp h with rfl | h
        · split
          · exact Or.inl List.mem_cons_self
          · exact Or.inr ho'
        · exact hsub (fun x hx => hdrop.subset (List.mem_cons_of_mem _ hx)) h
      · rcases List.mem_cons.mp h with rfl | h
        · exact Or.inl List.mem_cons_self
        · exact hsub hdrop.subset h

/-- Nothing but accounts changes. -/
structure AccountsOnly (s s' : LedgerState) : Prop where
  cache : ∀ p ∈ s'.mEntryCache, p ∈ s.mEntryCache
  reversedPayment : s'.db.reversedPayment = s.db.reversedPayment
  mSourceAccount : s'.mSourceAccount = s.mSourceAccount
  memory : SameMemory s s'

theorem AccountsOnly.kept (h : AccountsOnly s s') (hcustody : InCustody c s') : Kept c s s' :=
  ⟨hcustody, h.memory, .of_eq h.reversedPayment⟩

theorem AccountsOnly.refl (s : LedgerState) : AccountsOnly s s := ⟨fun _ h => h, rfl, rfl, .refl s⟩

theorem AccountsOnly.trans (h : AccountsOnly s t) (h' : AccountsOnly t s') : AccountsOnly s s' :=
  ⟨fun p hp => h.cache p (h'.cache p hp), h'.reversedPayment.trans h.reversedPayment,
    h'.mSourceAccount.trans h.mSourceAccount, h.memory.trans h'.memory⟩

theorem mem_of_mem_eraseCached {cache : List (LedgerKey × Option LedgerEntry)} {k : LedgerKey} :
    ∀ p ∈ eraseCached cache k, p ∈ cache :=
  fun _ hp => List.mem_of_mem_filter hp

section Stores

variable {f : AccountFrame} {d : ℕ}

theorem wp_applySigners_custody (h : InCustody c s) (hf : c.Holds f) :
    wp f.applySigners (fun _ s' => InCustody c s' ∧ AccountsOnly s s')
      (fun _ s' => InCustody c s' ∧ AccountsOnly s s') s := by
  simp only [AccountFrame.applySigners, flushCachedEntry, wp_bind, wp_get]
  cases hrow : s.db.accounts[f.getID]? with
  | none => exact ⟨h, .refl s⟩
  | some row =>
    obtain ⟨hid, htype, hsigners⟩ := h.rows _ row hrow
    simp only [wp_ite, wp_throw, wp_bind, wp_modify, wp_pure]
    refine ⟨fun _ => ⟨h, .refl s⟩, fun _ => ⟨fun _ => ?_, fun _ => ⟨h, .refl s⟩⟩⟩
    refine ⟨@InCustody.insert _ _ _ h f.getID { row with entry := { row.entry with
      signers := AccountFrame.mergeSigners f.mAccountEntry.signers row.entry.signers } }
      hid ⟨htype, ?_⟩ rfl mem_of_mem_eraseCached rfl, mem_of_mem_eraseCached, rfl, rfl,
      ⟨rfl, rfl, rfl, rfl, rfl, rfl⟩⟩
    intro o ho
    rcases mem_mergeSigners ho with ho | ho
    · have hf' : f.mAccountEntry.accountID = f.getID := rfl
      show c.signer row.entry.accountID _ _
      rw [hid, ← hf']
      exact hf.2 o ho
    · exact hsigners o ho

/-- The rest of a store of an account, once its row is written. -/
theorem wp_updateDelta_applySigners (h : InCustody c t) (hf : c.Holds f)
    {g : LedgerDelta → Option LedgerDelta} :
    wp (do
        updateDelta d g
        runIf f.mUpdateSigners f.applySigners
        return f.stored)
      (fun f' s' => (InCustody c s' ∧ AccountsOnly t s') ∧ f' = f.stored)
      (fun _ s' => InCustody c s' ∧ AccountsOnly t s') t := by
  rw [wp_bind, wp_updateDelta]
  refine ⟨fun δ _ => ?_, fun _ => ⟨h, .refl t⟩⟩
  have hδ : AccountsOnly t { t with deltas := Function.update t.deltas d δ } :=
    ⟨fun _ hp => hp, rfl, rfl, rfl, rfl, rfl, rfl, rfl, rfl⟩
  have hcustody : InCustody c { t with deltas := Function.update t.deltas d δ } :=
    h.of_accounts rfl (fun _ hp => hp) rfl
  rw [wp_bind]
  by_cases hu : f.mUpdateSigners
  · rw [runIf, if_pos hu]
    exact wp_mono (wp_applySigners_custody hcustody hf)
      (fun _ s' hs => ⟨⟨hs.1, hδ.trans hs.2⟩, rfl⟩) fun _ s' hs => ⟨hs.1, hδ.trans hs.2⟩
  · rw [runIf, if_neg hu]
    exact ⟨⟨hcustody, hδ⟩, rfl⟩

/-- The store of an account, from where its row is written. -/
theorem wp_writeAccount (h : InCustody c s) (hf : c.Holds f) {signers : List Signer}
    (trace : List Event) {g : LedgerDelta → Option LedgerDelta}
    (hrow : c.HoldsEntry { f.mAccountEntry with signers }) :
    wp (do
        updateDelta d g
        runIf f.mUpdateSigners f.applySigners
        return f.stored)
      (fun f' s' => Kept c s s' ∧ f' = f.stored) (fun _ s' => Kept c s s')
      { s with
        mEntryCache := eraseCached s.mEntryCache f.getKey
        db.accounts := s.db.accounts.insert f.getID (f.toRow signers)
        db.trace := trace } := by
  have hwritten : InCustody c { s with
      mEntryCache := eraseCached s.mEntryCache f.getKey
      db.accounts := s.db.accounts.insert f.getID (f.toRow signers)
      db.trace := trace } :=
    @InCustody.insert _ _ _ h f.getID (f.toRow signers) rfl hrow rfl mem_of_mem_eraseCached rfl
  have hwrite : AccountsOnly s { s with
      mEntryCache := eraseCached s.mEntryCache f.getKey
      db.accounts := s.db.accounts.insert f.getID (f.toRow signers)
      db.trace := trace } := ⟨mem_of_mem_eraseCached, rfl, rfl, rfl, rfl, rfl, rfl, rfl, rfl⟩
  exact wp_mono (wp_updateDelta_applySigners hwritten hf)
    (fun f' s' hs => ⟨(hwrite.trans hs.1.2).kept hs.1.1, hs.2⟩)
    fun _ s' hs => (hwrite.trans hs.2).kept hs.1

theorem kept_flush (h : InCustody c s) (k : LedgerKey) :
    Kept c s { s with mEntryCache := eraseCached s.mEntryCache k } :=
  AccountsOnly.kept ⟨mem_of_mem_eraseCached, rfl, rfl, rfl, rfl, rfl, rfl, rfl, rfl⟩
    (h.of_accounts rfl mem_of_mem_eraseCached rfl)

theorem keepsCustody_storeChange (hf : c.Holds f) :
    KeepsCustody c (f.storeChange d) (SameAccount f) := by
  intro s h
  rw [AccountFrame.storeChange, assertion, wp_bind, wp_require]
  refine ⟨fun _ => ?_, fun _ => .refl h⟩
  simp only [touch, assertion, wp_bind, wp_require, wp_get, wp_pure]
  refine ⟨fun _ => ?_, fun _ => .refl h⟩
  simp only [flushCachedEntry, wp_modify]
  set seq := (s.deltas d).touchedSeq f.lastModified
  have hf' : c.Holds { f with lastModified := seq } := hf
  cases hrow : s.db.accounts[f.getID]? with
  | none =>
    simp only [AccountFrame.getID] at hrow ⊢
    simp only [hrow]
    exact kept_flush h _
  | some row =>
    obtain ⟨hid, -, hsigners⟩ := h.rows _ row hrow
    simp only [AccountFrame.getID] at hrow hid ⊢
    simp only [hrow]
    rw [wp_bind, wp_modify]
    have hrow' : c.HoldsEntry { f.mAccountEntry with signers := row.entry.signers } := by
      refine ⟨hf.1, fun o ho => ?_⟩
      show c.signer f.mAccountEntry.accountID _ _
      rw [← hid]
      exact hsigners o ho
    have hwritten := wp_writeAccount (d := d) (g := (·.modEntry ⟨seq, .account f.mAccountEntry⟩))
      h hf' (.account f.loaded (row.entry.numSubEntries, row.entry.signers.length)
        f.mUpdateSigners :: s.db.trace) hrow'
    refine wp_mono hwritten (fun f' s' hs => ?_) fun _ s' hs => hs
    obtain ⟨hkept, rfl⟩ := hs
    exact ⟨hkept, rfl, rfl, rfl, rfl⟩

theorem keepsCustody_storeAdd (hf : c.newType f.mAccountEntry.accountType)
    (hsigners : f.mAccountEntry.signers = []) :
    KeepsCustody c (f.storeAdd d) fun f' => c.Holds f' ∧ SameAccount f f' := by
  intro s h
  rw [AccountFrame.storeAdd, assertion, wp_bind, wp_require]
  refine ⟨fun _ => ?_, fun _ => .refl h⟩
  simp only [touch, assertion, wp_bind, wp_require, wp_get, wp_pure]
  refine ⟨fun _ => ?_, fun _ => .refl h⟩
  simp only [flushCachedEntry, wp_modify]
  set seq := (s.deltas d).touchedSeq f.lastModified
  cases hrow : s.db.accounts[f.getID]? with
  | some row =>
    simp only [AccountFrame.getID] at hrow ⊢
    simp only [hrow]
    exact kept_flush h _
  | none =>
    have hnew : c.HoldsEntry { f.mAccountEntry with signers := [] } :=
      ⟨h.free _ hrow _ _ hf, fun _ ho => absurd ho List.not_mem_nil⟩
    have hf' : c.Holds { f with lastModified := seq } := by
      refine ⟨h.free _ hrow _ _ hf, fun o ho => ?_⟩
      rw [hsigners] at ho
      cases ho
    simp only [AccountFrame.getID] at hrow ⊢
    simp only [hrow]
    rw [wp_bind, wp_modify]
    have hwritten := wp_writeAccount (d := d) (g := (·.addEntry ⟨seq, .account f.mAccountEntry⟩))
      h hf' s.db.trace hnew
    refine wp_mono hwritten (fun f' s' hs => ?_) fun _ s' hs => hs
    obtain ⟨hkept, rfl⟩ := hs
    exact ⟨hkept, hf', rfl, rfl, rfl, rfl⟩

theorem keepsCustody_storeDelete (hf : c.Deletable f.getID) :
    KeepsCustody c (f.storeDelete d) fun _ => True := by
  intro s h
  simp only [AccountFrame.storeDelete, flushCachedEntry, wp_bind, wp_modify, wp_updateDelta]
  refine ⟨fun δ _ => ⟨⟨h.erase hf rfl mem_of_mem_eraseCached rfl, ?_, .of_eq rfl⟩, trivial⟩,
    fun _ => ⟨h.erase hf rfl mem_of_mem_eraseCached rfl, ?_, .of_eq rfl⟩⟩
  · exact ⟨rfl, rfl, rfl, rfl, rfl, rfl⟩
  · exact ⟨rfl, rfl, rfl, rfl, rfl, rfl⟩

end Stores

/-- An account that is loaded is one of the table or of the cache. -/
theorem wp_loadAccountDb_custody (h : InCustody c s) (id : AccountID) :
    wp (AccountFrame.loadAccountDb id)
      (fun o _ => ∀ f ∈ o, c.Holds f ∧ f.getID = id) (fun _ _ => True) s := by
  have hentry : ∀ (e : LedgerEntry) (u : Bool), (∀ lastModified a, e = ⟨lastModified, .account a⟩ →
      LedgerKey.account id = .account a.accountID ∧ c.HoldsEntry a) →
      ∀ f ∈ AccountFrame.ofEntry e u, c.Holds f ∧ f.getID = id := by
    intro e u he f hf
    obtain ⟨lastModified, data⟩ := e
    cases data with
    | account a =>
      cases hf
      obtain ⟨hk, ha⟩ := he lastModified a rfl
      exact ⟨ha, (LedgerKey.account.inj hk).symm⟩
    | _ => cases hf
  simp only [AccountFrame.loadAccountDb, getCachedEntry, wp_bind, wp_get]
  cases hcached : s.mEntryCache.lookup (.account id) with
  | some p =>
    simp only [wp_bind, wp_set, wp_pure]
    intro f hf
    obtain ⟨e, rfl, he⟩ := Option.bind_eq_some_iff.mp hf
    refine hentry e _ (fun lastModified a heq => ?_) f he
    subst heq
    obtain ⟨l₁, l₂, heq, -⟩ := List.lookup_eq_some_iff.mp hcached
    refine h.cached _ lastModified a ?_
    rw [heq]
    exact List.mem_append_right _ List.mem_cons_self
  | none =>
    simp only [wp_pure, wp_bind, wp_get]
    cases hrow : (s.db.selectAccount id).bind (AccountFrame.ofEntry · false) with
    | none =>
      simp only [putCachedEntry, wp_bind, wp_modify, wp_pure]
      exact fun _ hf => absurd hf (Option.not_mem_none _)
    | some f =>
      simp only [assertion, putCachedEntry, wp_bind, wp_require, wp_modify, wp_pure]
      refine ⟨fun _ f' hf' => ?_, fun _ => trivial⟩
      obtain ⟨e, he, hf⟩ := Option.bind_eq_some_iff.mp hrow
      refine hentry e false (fun lastModified a heq => ?_) f' (Option.mem_some.mp hf' ▸ hf)
      exact holds_select h.rows (k := .account id) (he.trans (congrArg some heq))

theorem keepsCustody_storeReversed {d : ℕ} {rID : ℤ} (hr : c.reversible rID) :
    KeepsCustody c (ReversedPaymentFrame.storeAdd d rID) fun _ => True := by
  intro s h
  simp only [ReversedPaymentFrame.storeAdd, touch, assertion, wp_bind, wp_require,
    wp_get, wp_pure]
  refine ⟨fun _ => ?_, fun _ => .refl h⟩
  cases hrow : s.db.reversedPayment[rID]? with
  | some _ => exact .refl h
  | none =>
    simp only [wp_bind, wp_modify, wp_updateDelta]
    have hmarks : ∀ s' : LedgerState,
        s'.db.reversedPayment = s.db.reversedPayment.insert rID ((s.deltas d).touchedSeq 0) →
          Marks c s s' := by
      intro s' hs'
      constructor
      · intro r hmem
        rw [hs', Std.ExtTreeMap.mem_insert]
        exact Or.inr hmem
      · intro r hmem
        rw [hs', Std.ExtTreeMap.mem_insert] at hmem
        rcases hmem with heq | hmem
        · rw [← compare_eq_iff_eq.mp heq]
          exact Or.inr hr
        · exact Or.inl hmem
    have hcustody : ∀ deltas, InCustody c { s with
        db.reversedPayment := s.db.reversedPayment.insert rID ((s.deltas d).touchedSeq 0)
        deltas := deltas } := fun _ => h.of_accounts rfl (fun _ hp => hp) rfl
    refine ⟨fun δ _ => ⟨⟨hcustody _, ?_, hmarks _ rfl⟩, trivial⟩,
      fun _ => ⟨hcustody _, ?_, hmarks _ rfl⟩⟩
    · exact ⟨rfl, rfl, rfl, rfl, rfl, rfl⟩
    · exact ⟨rfl, rfl, rfl, rfl, rfl, rfl⟩

theorem keepsCustody_loadAccount {d : ℕ} (id : AccountID) :
    KeepsCustody c (AccountFrame.loadAccount d id) fun o => ∀ f ∈ o, c.Holds f ∧ f.getID = id := by
  intro s h
  have hloaded := keepsCustody_of_loaded (c := c) (AccountFrame.wpLoaded_loadAccount d id)
    (WpElsewhere.loadAccount d id) s h
  have hfound : wp (AccountFrame.loadAccount d id)
      (fun o _ => ∀ f ∈ o, c.Holds f ∧ f.getID = id) (fun _ _ => True) s := by
    rw [AccountFrame.loadAccount, wp_bind]
    refine wp_mono (wp_loadAccountDb_custody h id) (fun o t ho => ?_) fun _ _ h => h
    cases o with
    | none => exact ho
    | some f =>
      rw [wp_bind]
      exact wp_mono (wp_trivial _) (fun _ _ _ => ho) fun _ _ h => h
  exact wp_mono (wp_and hloaded hfound) (fun o s' hs => ⟨hs.1.1, hs.2⟩) fun _ s' hs => hs.1

theorem keepsCustody_of_stored {kind : StoreKind} {e : ℕ} {k : LedgerKey} {x : LedgerM α}
    (hx : ∀ s, WpStored kind e k s x) (hx' : WpElsewhere x) :
    KeepsCustody c x fun _ => True := by
  intro s h
  have hkeep : ∀ s', (∀ k' v, (k', v) ∈ s'.mEntryCache → (k', v) ∈ s.mEntryCache) →
      Elsewhere s s' → Kept c s s' := fun s' hcache he =>
    ⟨h.of_accounts he.accounts (fun p hp => hcache p.1 p.2 hp) he.mSourceAccount, he.memory,
      .of_eq he.reversedPayment⟩
  refine wp_mono (wp_and (hx s) (hx' s)) (fun _ s' hs => ⟨?_, trivial⟩) fun _ s' hs => ?_
  · exact hkeep s' (fun k' v hmem => (hs.1.cache k' v hmem).1) hs.2
  · rcases hs.1.2 with hstored | hhalted
    · exact hkeep s' (fun k' v hmem => (hstored.cache k' v hmem).1) hs.2
    · exact hkeep s' (fun k' v hmem => (hhalted.cache k' v hmem).1) hs.2

/-! ## Code -/

namespace KeepsCustody

variable {R : α → Prop} {R' : β → Prop} {x : LedgerM α} {f : α → LedgerM β} {d : ℕ}

theorem pure {a : α} (h : R a) : KeepsCustody c (Pure.pure a) R := fun _ hs => ⟨.refl hs, h⟩

theorem throw (e : Exit) : KeepsCustody c (throwThe Exit e : LedgerM α) R := fun _ hs => .refl hs

theorem bind (hx : KeepsCustody c x R) (hf : ∀ a, R a → KeepsCustody c (f a) R') :
    KeepsCustody c (x >>= f) R' := by
  intro s h
  rw [wp_bind]
  refine wp_mono (hx s h) (fun a t ht => ?_) fun _ _ hs => hs
  refine wp_mono (hf a ht.2 t ht.1.custody) (fun b s' hs => ?_) fun _ s' hs => ht.1.trans hs
  exact ⟨ht.1.trans hs.1, hs.2⟩

theorem mono (hx : KeepsCustody c x R) {R' : α → Prop} (h : ∀ a, R a → R' a) :
    KeepsCustody c x R' :=
  fun s hs => wp_mono (hx s hs) (fun a _ ha => ⟨ha.1, h a ha.2⟩) fun _ _ he => he

theorem tryCatch (hx : KeepsCustody c x R) {handle : Exit → LedgerM α}
    (hh : ∀ e, KeepsCustody c (handle e) R) : KeepsCustody c (tryCatch x handle) R := by
  intro s h
  rw [wp_tryCatch]
  refine wp_mono (hx s h) (fun _ _ hs => hs) fun e t ht => ?_
  refine wp_mono (hh e t ht.custody) (fun a s' hs => ?_) fun _ s' hs => ht.trans hs
  exact ⟨ht.trans hs.1, hs.2⟩

/-- Only the cache, of which nothing new, and the deltas. -/
theorem modify {g : LedgerState → LedgerState} (hdb : ∀ s, (g s).db = s.db)
    (hcache : ∀ s, ∀ p ∈ (g s).mEntryCache, p ∈ s.mEntryCache)
    (hsource : ∀ s, (g s).mSourceAccount = s.mSourceAccount) (hmemory : ∀ s, SameMemory s (g s)) :
    KeepsCustody c (modify g) fun _ => True := by
  intro s h
  refine ⟨⟨h.of_accounts (by rw [hdb]) (hcache s) (hsource s), hmemory s, .of_eq (by rw [hdb])⟩, trivial⟩

theorem updateDelta (g : LedgerDelta → Option LedgerDelta) :
    KeepsCustody c (updateDelta d g) fun _ => True := by
  intro s h
  rw [wp_updateDelta]
  refine ⟨fun δ _ => ⟨⟨h.of_accounts rfl (fun _ hp => hp) rfl, ?_, .of_eq rfl⟩, trivial⟩,
    fun _ => .refl h⟩
  exact ⟨rfl, rfl, rfl, rfl, rfl, rfl⟩

theorem commit : KeepsCustody c (commit d) fun _ => True := by
  intro s h
  simp only [Ledger.commit, wp_bind, wp_get, wp_ite, wp_throw]
  exact ⟨fun _ => .refl h, fun _ => updateDelta _ s h⟩

theorem nested (hx : KeepsCustody c x R) : KeepsCustody c (nested d x) R := by
  have hopen : KeepsCustody c (openDelta d) fun _ => True :=
    modify (fun _ => rfl) (fun _ _ hp => hp) (fun _ => rfl) fun _ => ⟨rfl, rfl, rfl, rfl, rfl, rfl⟩
  have hrollback : KeepsCustody c (rollback (d + 1)) fun _ => True := by
    refine modify (fun _ => rfl) (fun s p hp => ?_) (fun _ => rfl)
      fun _ => ⟨rfl, rfl, rfl, rfl, rfl, rfl⟩
    exact (mem_foldl_eraseCached.mp hp).1
  refine hopen.bind fun _ _ => tryCatch ?_ fun e => hrollback.bind fun _ _ => throw e
  exact hx.bind fun a ha => commit.bind fun _ _ => pure ha

/-- The rows are as they were before, if it stops. -/
theorem sqlTransaction (hx : KeepsCustody c x R) : KeepsCustody c (sqlTransaction x) R := by
  intro s h
  simp only [Ledger.sqlTransaction, wp_bind, wp_get, wp_tryCatch, wp_modify, wp_throw]
  refine wp_mono (hx s h) (fun _ _ hs => hs) fun e t ht => ?_
  refine ⟨⟨h.rows, h.free, ht.custody.cached, ht.custody.source⟩, ?_, .of_eq rfl⟩
  obtain ⟨h₁, h₂, h₃, h₄, h₅, h₆⟩ := ht.memory
  exact ⟨h₁, h₂, h₃, h₄, h₅, h₆⟩

end KeepsCustody

/-- **Every program keeps custody.** -/
theorem Program.keepsCustody {m : Mode} {x : LedgerM α} {R : α → Prop} (h : Program c m x R) :
    KeepsCustody c x R := by
  induction h with
  | pure h => exact .pure h
  | bind _ _ ihx ihf => exact ihx.bind ihf
  | mono _ h ih => exact ih.mono h
  | throw e => exact .throw e
  | get => exact fun s h => ⟨.refl h, True.intro⟩
  | note e =>
    intro s h
    refine ⟨⟨h.of_accounts rfl (fun _ hp => hp) rfl, ?_, .of_eq rfl⟩, True.intro⟩
    exact ⟨rfl, rfl, rfl, rfl, rfl, rfl⟩
  | setHeader header => exact .updateDelta _
  | load hx hx' => exact keepsCustody_of_loaded hx hx'
  | loadAccount id => exact keepsCustody_loadAccount id
  | storeChange hf _ => exact keepsCustody_storeChange hf
  | storeAdd hf hsigners => exact keepsCustody_storeAdd hf hsigners
  | storeDelete hf => exact keepsCustody_storeDelete hf
  | storeReversed hr => exact keepsCustody_storeReversed hr
  | store _ hx _ hx' _ => exact keepsCustody_of_stored hx hx'
  | getSource =>
    intro s h
    simp only [getSourceAccount, wp_bind, wp_get, wp_deref]
    exact ⟨fun f hf => ⟨.refl h, h.source f hf⟩, fun _ => .refl h⟩
  | setSource hf =>
    intro s h
    refine ⟨⟨⟨h.rows, h.free, h.cached, ?_⟩, ?_, .of_eq rfl⟩, True.intro⟩
    · intro f hf'
      cases hf'
      exact hf
    · exact ⟨rfl, rfl, rfl, rfl, rfl, rfl⟩
  | catchFailed _ _ hother ihx ihfail =>
    refine ihx.tryCatch fun e => ?_
    by_cases he : ∀ r, e ≠ .opFailed r
    · rw [hother e he]
      exact .throw e
    · obtain ⟨r, he⟩ := not_forall.mp he
      obtain rfl := not_not.mp he
      exact ihfail r
  | guarded _ _ ih =>
    refine KeepsCustody.nested (KeepsCustody.bind (R := fun _ => True) ?_ fun header _ => ?_)
    · exact fun s h => ⟨.refl h, True.intro⟩
    · refine KeepsCustody.bind (R := fun _ => True) ?_ fun _ _ => ih header
      rw [Transactions.failIf]
      split
      · exact .throw _
      · exact .pure True.intro
  | scope _ _ ihx ihf => exact (KeepsCustody.sqlTransaction (ihx.bind ihf)).nested

end SmartCore.Transactions
