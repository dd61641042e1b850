import SmartCore.Transactions.SignatureWeights
import SmartCore.Transactions.Steps

/-!
# What the meta keeps

A transaction that does not succeed is rolled back, but its meta is cleared only after an operation
that failed. Two other exits keep it: an operation stops with an exception, or all of them succeed and
there is a signature that no check has used.

**Theorem (`applyTransaction_atomic`).** In every ledger from genesis on, a transaction is applied as a
whole, with the changes of each operation in its meta, or leaves everything as it was and no change in
its meta, unless it takes one of the two exits after an operation that could store something. If it
takes one after a row has changed, the change stays in the meta.
-/

namespace SmartCore.Transactions

open SmartCore.Ledger TransactionFrame OperationFrame LedgerManager

variable {app : Application} {env : TransactionEnvelope} {d : ℕ} {op : Operation}
  {fee : Option OperationFee} {s s' s₁ t u v : LedgerState} {scopes : List Scope}
  {o : Operation × Option OperationFee} {ops : List (Operation × Option OperationFee)}

/-! ## Operations that store nothing -/

/-- An operation that stores nothing, whatever becomes of it: a payment to its own source is only
marked as a success. -/
def Silent (env : TransactionEnvelope) (op : Operation) : Prop :=
  match op.body with
  | .ADMINISTRATIVE _ => True
  | .PAYMENT payment => payment.destination = getSourceID env op
  | _ => False

namespace OnlyLoads

theorem failIf (p : Prop) [Decidable p] (r : OperationResultTr) : OnlyLoads d (failIf p r) :=
  ite (throw _) (pure _)

theorem deref {α : Type} (o : Option α) (e : Exit) : OnlyLoads d (deref o e) := by
  cases o with
  | none => exact throw _
  | some a => exact pure a

theorem tryCatch {α : Type} {x : LedgerM α} {h : Exit → LedgerM α} (hx : OnlyLoads d x)
    (hh : ∀ e, OnlyLoads d (h e)) : OnlyLoads d (tryCatch x h) := by
  intro s
  rw [wp_tryCatch]
  exact wp_mono (hx s) (fun _ _ ht => ht) fun e t ht =>
    wp_mono (hh e t) (fun _ _ hu => ht.trans hu) fun _ _ hu => ht.trans hu

theorem doCheckValid (h : Silent env op) :
    OnlyLoads d (OperationFrame.doCheckValid app env op fee) := by
  unfold Silent at h
  unfold OperationFrame.doCheckValid
  cases hbody : op.body with
  | ADMINISTRATIVE o =>
    exact (failIf _ _).bind fun _ => (failIf _ _).bind fun _ => get.bind fun _ => failIf _ _
  | PAYMENT o =>
    have hfee (f : OperationFee) (asset : Asset) (amount : ℤ) (malformed : OperationResultTr) :
        OnlyLoads d (PathPaymentOpFrame.checkFee f asset amount malformed) := by
      cases f with
      | opFEE_NONE => exact failIf _ _
      | opFEE_CHARGED feeAsset amountToCharge =>
        exact (failIf _ _).bind fun _ => (failIf _ _).bind fun _ => failIf _ _
    exact (deref _ _).bind fun f => (hfee f _ _ _).bind fun _ => failIf _ _
  | _ =>
    rw [hbody] at h
    exact h.elim

theorem doApply (h : Silent env op) : OnlyLoads d (OperationFrame.doApply app env d op fee) := by
  unfold Silent at h
  unfold OperationFrame.doApply
  cases hbody : op.body with
  | ADMINISTRATIVE o => exact pure _
  | PAYMENT o =>
    rw [hbody] at h
    have hself : ¬ o.destination ≠ getSourceID env op := not_not.mpr h
    refine bind ?_ fun _ => pure _
    refine bind ?_ fun _ => pure _
    rw [runIf, if_neg hself]
    exact pure _
  | _ =>
    rw [hbody] at h
    exact h.elim

theorem applyOperation (h : Silent env op) :
    OnlyLoads d (OperationFrame.apply app env d op fee) := by
  have hskip (x : LedgerM Unit) : OnlyLoads d (runIf ((some d).isNone = true) x) := pure ()
  have hvalid : OnlyLoads d (OperationFrame.checkValid app env (some d) op fee) :=
    loadSource.bind fun source => (checkSource source).bind fun _ =>
      (hskip _).bind fun _ => doCheckValid h
  refine bind (tryCatch (hvalid.bind fun _ => (doApply h).bind fun _ => pure _) fun e => ?_)
    fun r => ?_
  · cases e with
    | opFailed r => exact pure _
    | _ => exact throw _
  · exact sync r

end OnlyLoads

/-! ## What an operation notes -/

theorem withDelta_openedDelta (d : ℕ) (t : LedgerState) : (withDelta d t).deltas (d + 1) =
    .ofHeader (t.deltas d).mCurrentHeader (t.deltas d).mUpdateLastModified :=
  Function.update_self ..

theorem getChanges_of_silent {txRes : Bool} (h : Silent env op)
    (happly : OperationFrame.apply app env (d + 1) op fee (withDelta d t) = .ok txRes u) :
    (u.deltas (d + 1)).getChanges = [] := by
  have hloads : OnlyLoads (d + 1) (OperationFrame.apply app env (d + 1) op fee) := .applyOperation h
  have hchecked : Checked (d + 1) (withDelta d t) u :=
    of_wp_ok (Q := fun _ u => Checked (d + 1) (withDelta d t) u) (hloads _) happly
  have hsame := hchecked.loaded.same
  rw [withDelta_openedDelta] at hsame
  exact getChanges_of_same hsame

/-- A delta that has touched an entry has a change. -/
theorem not_touched_of_getChanges {δ : LedgerDelta} (h : δ.getChanges = []) (k : LedgerKey) :
    k ∉ δ.touched := by
  rw [LedgerDelta.getChanges, List.append_eq_nil_iff, List.append_eq_nil_iff] at h
  obtain ⟨⟨hnew, hmod⟩, hdelete⟩ := h
  have hnone {table : Table LedgerKey LedgerEntry} (hempty : table.toList = []) : k ∉ table := by
    intro hk
    have hmem := Std.ExtTreeMap.mem_keys.mpr hk
    rw [← Std.ExtTreeMap.map_fst_toList_eq_keys, hempty] at hmem
    cases hmem
  have hmod : δ.mMod.toList = [] := List.eq_nil_iff_forall_not_mem.mpr fun row hrow => by
    have hrow := List.flatMap_eq_nil_iff.mp hmod row hrow
    exact List.cons_ne_nil _ _ (List.append_eq_nil_iff.mp hrow).2
  simp only [LedgerDelta.touched, List.mem_append, Std.ExtTreeMap.mem_keys]
  rintro ((hk | hk) | hk)
  · have hrow := List.flatMap_eq_nil_iff.mp hdelete k (Std.ExtTreeMap.mem_keys.mpr hk)
    exact List.cons_ne_nil _ _ (List.append_eq_nil_iff.mp hrow).2
  · exact hnone (List.map_eq_nil_iff.mp hnew) hk
  · exact hnone hmod hk

/-- An operation that changes a row notes it. -/
theorem rows_of_getChanges {txRes : Bool} (hc : Contained anyCustody t) (h : Inside scopes d t)
    (happly : OperationFrame.apply app env (d + 1) op fee (withDelta d t) = .ok txRes u)
    (hno : (u.deltas (d + 1)).getChanges = []) (k : LedgerKey) :
    u.db.select k = t.db.select k := by
  have hopened : Contained anyCustody (withDelta d t) := hc.of_eq rfl (fun _ hp => hp) rfl rfl
  have hin := (of_wp_ok (wp_applyOperation fee hopened h.openedScope fun _ => admits_any env op)
    happly).1
  obtain ⟨-, htracks⟩ := hin.tracks ⟨t.db, d + 1⟩ List.mem_cons_self
  refine htracks.untouched k fun j hlo hle => ?_
  obtain rfl : j = d + 1 := le_antisymm hle hlo
  exact not_touched_of_getChanges hno k

/-- What the operations note: nothing if they are all silent, and something if a row has changed. -/
theorem noted_of_applyOperations {b : Bool} (hc : Contained anyCustody s) (h : Inside [] d s)
    (hops : applyOperations app env d ops s = .ok b t) :
    ∃ tm, t.tm = s.tm ++ tm ∧ ((∀ o ∈ ops, Silent env o.1) → NoChanges tm) ∧
      (NoChanges tm → ∀ k, t.db.select k = s.db.select k) := by
  refine applyOperations_induct (P := fun _ ops t => ∃ tm, t.tm = s.tm ++ tm ∧
    ((∀ o ∈ ops, Silent env o.1) → NoChanges tm) ∧
      (NoChanges tm → ∀ k, t.db.select k = s.db.select k)) ?_ ?_ hops
  · exact ⟨[], (List.append_nil _).symm, fun _ => nofun, fun _ _ => rfl⟩
  · intro pre o b txRes t u t' hpre _ hop ih
    obtain ⟨hct, hin⟩ := inside_applyOperations hc h hpre
    obtain ⟨tm, htm, hsilent, hrows⟩ := ih
    obtain ⟨deltas, rfl⟩ := hop.after
    have hopened : Contained anyCustody (withDelta d t) := hct.of_eq rfl (fun _ hp => hp) rfl rfl
    have hwithin := (of_wp_ok (wp_applyOperation o.2 hopened hin.opened
      fun _ => admits_any env o.1) hop.apply).2
    have hutm : u.tm = t.tm := hwithin.tm
    refine ⟨tm ++ [(u.deltas (d + 1)).getChanges], ?_, fun hall => ?_, fun hno k => ?_⟩
    · rw [hutm, htm, List.append_assoc]
    · intro changes hmem
      rcases List.mem_append.mp hmem with hmem | hmem
      · exact hsilent (fun o ho => hall o (List.mem_append_left _ ho)) changes hmem
      · rw [List.mem_singleton.mp hmem]
        exact getChanges_of_silent (hall o (List.mem_append_right _ List.mem_cons_self)) hop.apply
    · have hlast := hno _ (List.mem_append_right _ List.mem_cons_self)
      rw [← hrows (fun changes hmem => hno changes (List.mem_append_left _ hmem)) k]
      exact rows_of_getChanges hct hin hop.apply hlast k

/-! ## The signatures that are used -/

/-- The checks of signatures that a transaction makes up to and with its operations `ops`: each is of
the source as it is loaded then. -/
inductive CheckMade (app : Application) (env : TransactionEnvelope) (d : ℕ) (s : LedgerState)
    (ops : List (Operation × Option OperationFee)) : SignatureCheck → Prop
  | transaction {account : AccountFrame} {t : LedgerState}
      (hload : (resetSignatureTracker env >>= fun _ => loadSigningAccount env (some d)) s =
        .ok (some account) t) :
      CheckMade app env d s ops (transactionCheck app env account.mAccountEntry)
  | operation {pre post : List (Operation × Option OperationFee)}
      {o : Operation × Option OperationFee} {source : AccountFrame} {s₁ t u : LedgerState}
      (hstart : startOperations app env d s = .ok () s₁) (hsplit : ops = pre ++ o :: post)
      (hpre : applyOperations app env (d + 1) pre s₁ = .ok false t) (hmerge : ¬ IsMerge o.1)
      (hload : loadSource env (some (d + 2)) o.1 (withDelta (d + 1) t) = .ok source u) :
      CheckMade app env d s ops (operationCheck app env o.1 source.mAccountEntry)

/-- The signature is used by a check. -/
def SignatureUsed (app : Application) (env : TransactionEnvelope) (d : ℕ) (s : LedgerState)
    (ops : List (Operation × Option OperationFee)) (i : ℕ) : Prop :=
  ∃ r, CheckMade app env d s ops r ∧ i ∈ r.usedSignatures

/-- What the tracker says of the signatures. -/
structure Tracked (app : Application) (env : TransactionEnvelope) (d : ℕ) (s : LedgerState)
    (ops : List (Operation × Option OperationFee)) (t : LedgerState) : Prop where
  length : t.mUsedSignatures.length = env.signatures.length
  marks : ∀ i < env.signatures.length,
    t.mUsedSignatures[i]? = some true ↔ SignatureUsed app env d s ops i

theorem tracked_startOperations (hstart : startOperations app env d s = .ok () s₁) :
    Tracked app env d s [] s₁ := by
  obtain ⟨account, t, hload, rfl⟩ := ok_of_startOperations hstart
  have hreset : t.mUsedSignatures = List.replicate env.signatures.length false := by
    obtain ⟨_, s₂, hreset, hsigning⟩ := bind_eq_ok.mp hload
    cases hreset
    obtain ⟨u, -, helsewhere, rfl⟩ := ok_of_loadSigningAccount hsigning rfl
    exact helsewhere.memory.mUsedSignatures
  refine ⟨?_, fun i hi => ?_⟩
  · show (List.foldl _ t.mUsedSignatures _).length = _
    rw [length_foldl_set, hreset, List.length_replicate]
  · show (List.foldl _ t.mUsedSignatures _)[i]? = _ ↔ _
    rw [getElem?_foldl_set, hreset, List.length_replicate, List.getElem?_replicate]
    constructor
    · rintro (hmarked | hused)
      · simp at hmarked
      · exact ⟨_, .transaction hload, hused.1⟩
    · rintro ⟨r, hr, hused⟩
      cases hr with
      | transaction hload' =>
        obtain ⟨heq, -⟩ := EStateM.Result.ok.inj (hload.symm.trans hload')
        obtain rfl := Option.some.inj heq
        exact Or.inr ⟨hused, hi⟩
      | operation hstart hsplit => cases List.append_ne_nil_of_right_ne_nil _ (by simp) hsplit.symm

section Step

variable {pre : List (Operation × Option OperationFee)} {source : AccountFrame} {t' : LedgerState}

/-- The checks that were made before the operation, and its own. -/
theorem signatureUsed_append (hstart : startOperations app env d s = .ok () s₁)
    (hpre : applyOperations app env (d + 1) pre s₁ = .ok false t)
    (hload : loadSource env (some (d + 2)) o.1 (withDelta (d + 1) t) = .ok source u) (i : ℕ) :
    SignatureUsed app env d s (pre ++ [o]) i ↔ SignatureUsed app env d s pre i ∨
      ¬ IsMerge o.1 ∧ i ∈ (operationCheck app env o.1 source.mAccountEntry).usedSignatures := by
  constructor
  · rintro ⟨r, hr, hi⟩
    cases hr with
    | transaction hload => exact Or.inl ⟨_, .transaction hload, hi⟩
    | @operation pre' post o' source' s₁' t' u' hstart' hsplit hpre' hmerge hload' =>
      rcases List.eq_nil_or_concat post with rfl | ⟨post, last, rfl⟩
      · obtain ⟨rfl, hlast⟩ := List.append_inj' hsplit rfl
        obtain rfl := List.singleton_inj.mp hlast
        cases hstart.symm.trans hstart'
        cases hpre.symm.trans hpre'
        cases hload.symm.trans hload'
        exact Or.inr ⟨hmerge, hi⟩
      · have hsplit : pre ++ [o] = (pre' ++ o' :: post) ++ [last] := by simpa using hsplit
        obtain ⟨rfl, -⟩ := List.append_inj' hsplit rfl
        exact Or.inl ⟨_, .operation hstart' rfl hpre' hmerge hload', hi⟩
  · rintro (⟨r, hr, hi⟩ | ⟨hmerge, hi⟩)
    · cases hr with
      | transaction hload => exact ⟨_, .transaction hload, hi⟩
      | @operation pre' post o' source' s₁' t' u' hstart' hsplit hpre' hmerge hload' =>
        have hsplit : pre ++ [o] = pre' ++ o' :: (post ++ [o]) := by
          rw [hsplit, List.append_assoc, List.cons_append]
        exact ⟨_, .operation hstart' hsplit hpre' hmerge hload', hi⟩
    · exact ⟨_, .operation hstart rfl hpre hmerge hload, hi⟩

theorem tracked_step (hstart : startOperations app env d s = .ok () s₁)
    (hc : Contained anyCustody t) (hin : Inside [] (d + 1) t)
    (hpre : applyOperations app env (d + 1) pre s₁ = .ok false t)
    (hop : OperationStep app env (d + 1) o true t u t') (h : Tracked app env d s pre t) :
    Tracked app env d s (pre ++ [o]) t' := by
  obtain ⟨source, t₂, v, hran⟩ := hop.ran hc hin
  obtain ⟨t₁, hload⟩ := hran.load
  obtain ⟨deltas, rfl⟩ := hop.after
  have hlast : u.mUsedSignatures = t₂.mUsedSignatures :=
    hran.rest.2.1.trans hran.kept.memory.mUsedSignatures
  have hmarks : u.mUsedSignatures.length = env.signatures.length ∧ ∀ i < env.signatures.length,
      (u.mUsedSignatures[i]? = some true ↔ t.mUsedSignatures[i]? = some true ∨
        ¬ IsMerge o.1 ∧ i ∈ (operationCheck app env o.1 source.mAccountEntry).usedSignatures) := by
    rcases hran.check with ⟨hmerge, -, hused⟩ | ⟨hmerge, -, -, hused⟩
    · rw [hlast, hused]
      exact ⟨h.length, fun i _ => by simp [hmerge]⟩
    · rw [hlast, hused, length_foldl_set]
      refine ⟨h.length, fun i hi => ?_⟩
      rw [getElem?_foldl_set, h.length]
      simp [hmerge, hi]
  refine ⟨hmarks.1, fun i hi => ?_⟩
  rw [signatureUsed_append hstart hpre hload, ← h.marks i hi]
  exact hmarks.2 i hi

end Step

theorem tracked_applyOperations (hs : Ordered s)
    (hstart : startOperations app env d s = .ok () s₁)
    (hops : applyOperations app env (d + 1) ops s₁ = .ok false t) : Tracked app env d s ops t := by
  obtain ⟨hc, hin⟩ := contained_startOperations hs.contained hs.coherent hstart
  refine applyOperations_induct_ok (tracked_startOperations hstart) ?_ hops
  intro pre o t u t' hpre _ hop ih
  obtain ⟨hct, hint⟩ := inside_applyOperations hc hin hpre
  exact tracked_step hstart hct hint hpre hop ih

/-! ## The exits -/

/-- The two exits on which the meta is not cleared, with the operations that have been applied and the
state that they left: no operation has failed and there is a signature that is not used, or an
operation stops. A failed assertion would end the process. -/
inductive KeepsMeta (app : Application) (env : TransactionEnvelope) (s : LedgerState) :
    List (Operation × Option OperationFee) → LedgerState → Prop
  | extra {s₁ t : LedgerState} {i : ℕ} (hstart : startOperations app env 1 s = .ok () s₁)
      (hops : applyOperations app env 2 (mOperations env) s₁ = .ok false t)
      (hi : i < env.signatures.length)
      (hunused : ¬ SignatureUsed app env 1 s (mOperations env) i) :
      KeepsMeta app env s (mOperations env) t
  | exception {s₁ t u : LedgerState} {pre post : List (Operation × Option OperationFee)}
      {o : Operation × Option OperationFee} {b : Bool} {e : Exit}
      (hstart : startOperations app env 1 s = .ok () s₁) (hsplit : mOperations env = pre ++ o :: post)
      (hpre : applyOperations app env 2 pre s₁ = .ok b t)
      (hstop : OperationFrame.apply app env 3 o.1 o.2 (withDelta 2 t) = .error e u)
      (hkept : e ≠ .abort ∧ ∀ results, e ≠ .txFailed (.txFAILED results)) :
      KeepsMeta app env s pre t

/-- No such exit is taken after an operation that could store something. -/
def Cleared (app : Application) (env : TransactionEnvelope) (s : LedgerState) : Prop :=
  ∀ ops t, KeepsMeta app env s ops t → ∀ o ∈ ops, Silent env o.1

theorem runOperations_eq : runOperations app env = (do
    startOperations app env 1
    applyOperations app env 2 (mOperations env)) := by
  simp only [runOperations, checks, startOperations, bind_assoc]

theorem wp_startOperations_tm (s : LedgerState) :
    wp (startOperations app env d) (fun _ t => t.tm = s.tm ∧ t.db = s.db) (fun _ t => t.tm = s.tm)
      s := by
  have hloads : OnlyLoads d (do
      resetSignatureTracker env
      commonValid app env (some d) 0) := OnlyLoads.resetSignatureTracker.bind fun _ => .commonValid
  have hsplit : startOperations app env d = (do
      resetSignatureTracker env
      commonValid app env (some d) 0) >>= fun _ => openDelta d := by
    simp only [startOperations, bind_assoc]
  rw [hsplit, wp_bind]
  exact wp_mono (hloads s) (fun _ _ ht => ⟨ht.tm, ht.loaded.db⟩) fun _ _ ht => ht.tm

/-- An operation that stops is rolled back. -/
theorem wp_applyWithMeta_stopped (hc : Contained anyCustody t) (h : Inside scopes d t) :
    wp (applyWithMeta app env d o) (fun _ _ => True)
      (fun e v => e = .abort ∨ v.tm = t.tm ∧
        ∃ u, OperationFrame.apply app env (d + 1) o.1 o.2 (withDelta d t) = .error e u) t := by
  have hopened : Contained anyCustody (withDelta d t) := hc.of_eq rfl (fun _ hp => hp) rfl rfl
  simp only [applyWithMeta, nested, openDelta, rollback, wp_bind, wp_modify, wp_tryCatch, wp_throw,
    wp_pure]
  refine wp_mono (wp_and (wp_applyOperation o.2 hopened h.opened fun _ => admits_any env o.1)
    (wp_self _ (withDelta d t))) (fun txRes u hu => ?_) fun e u hu => Or.inr ⟨hu.1.2.tm, u, hu.2⟩
  obtain ⟨⟨hin, hwithin⟩, -⟩ := hu
  refine wp_mono (wp_commit (inside_noted hin _) fun c hc => (h.tracks c hc).1) (fun _ _ _ => trivial)
    fun e v hv => Or.inl ?_
  obtain ⟨-, he⟩ := hv
  refine he.resolve_right fun hmismatch => hmismatch.2 ?_
  -- the delta around it still has the header that it was opened over
  have hprevious := hwithin.steps.previous (d + 1) le_rfl
  have hdelta := hwithin.steps.outside.openedAt
  show (u.deltas (d + 1)).mPreviousHeaderValue = (u.deltas d).mCurrentHeader
  rw [hprevious, hdelta]
  exact congrArg _ (Function.update_self ..)

theorem applyOperations_error {pre post : List (Operation × Option OperationFee)} {b : Bool}
    {e : Exit} (hpre : applyOperations app env d pre s = .ok b t)
    (hstop : applyWithMeta app env d o t = .error e v) :
    applyOperations app env d (pre ++ o :: post) s = .error e v := by
  induction pre generalizing s b with
  | nil =>
    cases hpre
    exact bind_of_error hstop
  | cons o' pre ih =>
    obtain ⟨txRes, b', t', hop, hrest, -⟩ := applyOperations_cons hpre
    exact (bind_of_ok hop).trans (bind_of_error (ih hrest))

/-- Changes that are left in the meta have come through one of the exits. -/
theorem keepsMeta_of_leavesChanges (hs : Ordered s) (htm : s.tm = [])
    (hleaves : LeavesChanges app env s) :
    ∃ ops t, KeepsMeta app env s ops t ∧ ¬ ∀ o ∈ ops, Silent env o.1 := by
  rw [LeavesChanges, runOperations_eq] at hleaves
  have hnothing : NoChanges [] := List.forall_mem_nil _
  cases hstart : startOperations app env 1 s with
  | error e u =>
    have hu : wp (startOperations app env 1) _ _ s := wp_startOperations_tm s
    rw [wp, hstart] at hu
    have hu : u.tm = [] := hu.trans htm
    rw [bind_of_error hstart] at hleaves
    refine absurd ?_ hleaves
    rw [hu]
    cases e with
    | txFailed r => cases r <;> exact hnothing
    | _ => exact hnothing
  | ok _ s₁ =>
    obtain ⟨hc, hin⟩ := contained_startOperations hs.contained hs.coherent hstart
    have hs₁ : s₁.tm = [] := (of_wp_ok (wp_startOperations_tm s) hstart).1.trans htm
    have hnoted {pre : List (Operation × Option OperationFee)} {b : Bool} {t : LedgerState}
        (hpre : applyOperations app env 2 pre s₁ = .ok b t) (hchanges : ¬ NoChanges t.tm) :
        ¬ ∀ o ∈ pre, Silent env o.1 := by
      obtain ⟨tm, ht, hsilent, -⟩ := noted_of_applyOperations hc hin hpre
      rw [ht, hs₁] at hchanges
      exact fun hall => hchanges (hsilent hall)
    rw [bind_of_ok hstart] at hleaves
    cases hops : applyOperations app env 2 (mOperations env) s₁ with
    | ok b t =>
      rw [hops] at hleaves
      obtain ⟨rfl, hextra, hchanges⟩ := hleaves
      have htracked := tracked_applyOperations hs hstart hops
      obtain ⟨used, hused, hfalse⟩ : ∃ used ∈ t.mUsedSignatures, used = false := by
        simpa using hextra
      obtain ⟨i, hi, rfl⟩ := List.getElem_of_mem hused
      have hlen : i < env.signatures.length := htracked.length ▸ hi
      refine ⟨_, t, .extra hstart hops hlen fun hsig => ?_, hnoted hops hchanges⟩
      have hmarked := (htracked.marks i hlen).mpr hsig
      rw [List.getElem?_eq_getElem hi, hfalse] at hmarked
      cases hmarked
    | error e v =>
      rw [hops] at hleaves
      have hstopped : wp (applyOperations app env 2 (mOperations env)) _ _ s₁ :=
        wp_applyOperations_stopped (mOperations env) s₁
      rw [wp, hops] at hstopped
      obtain ⟨pre, o, post, b, t, hsplit, hpre, hstop⟩ := hstopped
      obtain ⟨hct, hint⟩ := inside_applyOperations hc hin hpre
      have hlast : wp (applyWithMeta app env 2 o) _ _ t := wp_applyWithMeta_stopped hct hint
      rw [wp, hstop] at hlast
      have hkept : e ≠ .abort ∧ ∀ results, e ≠ .txFailed (.txFAILED results) :=
        ⟨fun he => hleaves (he ▸ hnothing), fun results he => hleaves (he ▸ hnothing)⟩
      obtain ⟨hv, u, hu⟩ := hlast.resolve_left hkept.1
      refine ⟨pre, t, .exception hstart hsplit hpre hu hkept, hnoted hpre fun hno => hleaves ?_⟩
      rw [hv]
      cases e with
      | txFailed r => cases r <;> first | exact hno | exact hnothing
      | abort => exact hnothing
      | _ => exact hno

/-- A row that has changed before one of the exits is in the meta. -/
theorem leavesChanges_of_keepsMeta (hs : Ordered s) (htm : s.tm = [])
    (hkeeps : KeepsMeta app env s ops t) {k : LedgerKey}
    (hrow : t.db.select k ≠ s.db.select k) : LeavesChanges app env s := by
  have hnoted {s₁ : LedgerState} {b : Bool} (hstart : startOperations app env 1 s = .ok () s₁)
      (hpre : applyOperations app env 2 ops s₁ = .ok b t) : ¬ NoChanges t.tm := by
    obtain ⟨hc, hin⟩ := contained_startOperations hs.contained hs.coherent hstart
    obtain ⟨htm₁, hdb⟩ := of_wp_ok (wp_startOperations_tm s) hstart
    obtain ⟨tm, ht, -, hrows⟩ := noted_of_applyOperations hc hin hpre
    rw [ht, htm₁, htm]
    exact fun hno => hrow ((hrows hno k).trans (congrArg (·.select k) hdb))
  rw [LeavesChanges, runOperations_eq]
  cases hkeeps with
  | @extra s₁ t i hstart hops hi hunused =>
    rw [bind_of_ok hstart, hops]
    have htracked := tracked_applyOperations hs hstart hops
    refine ⟨rfl, fun hall => hunused ((htracked.marks i hi).mp ?_), hnoted hstart hops⟩
    have hlt : i < t.mUsedSignatures.length := htracked.length ▸ hi
    rw [List.getElem?_eq_getElem hlt]
    exact congrArg some (List.all_eq_true.mp hall _ (List.getElem_mem hlt))
  | @exception s₁ t u pre post o b e hstart hsplit hpre hstop hkept =>
    have hstopped : wp (applyWithMeta app env 2 o) (fun _ _ => False)
        (fun e' v => e' = e ∧ v.tm = u.tm) t := by
      simp only [applyWithMeta, nested, openDelta, rollback, wp_bind, wp_modify, wp_tryCatch,
        wp_throw, wp_pure]
      refine wp_mono (wp_self (OperationFrame.apply app env 3 o.1 o.2) (withDelta 2 t))
        (fun txRes w hw => ?_) fun e' w hw => ?_
      · cases hstop.symm.trans hw
      · cases hstop.symm.trans hw
        exact ⟨rfl, rfl⟩
    obtain ⟨hc, hin⟩ := contained_startOperations hs.contained hs.coherent hstart
    obtain ⟨hct, hint⟩ := inside_applyOperations hc hin hpre
    have hopened : Contained anyCustody (withDelta 2 t) := hct.of_eq rfl (fun _ hp => hp) rfl rfl
    have hu : wp (OperationFrame.apply app env 3 o.1 o.2) (fun _ _ => True)
        (fun _ u => u.tm = t.tm) (withDelta 2 t) :=
      wp_mono (wp_applyOperation o.2 hopened hint.opened fun _ => admits_any env o.1)
        (fun _ _ _ => trivial) fun _ _ hu => hu.2.tm
    rw [wp, hstop] at hu
    cases hop : applyWithMeta app env 2 o t with
    | ok txRes v =>
      rw [wp, hop] at hstopped
      exact hstopped.elim
    | error e' v =>
      rw [wp, hop] at hstopped
      obtain ⟨rfl, hv⟩ := hstopped
      rw [bind_of_ok hstart, hsplit, applyOperations_error hpre hop]
      have htm' : v.tm = t.tm := hv.trans hu
      have hchanges := hnoted hstart hpre
      rw [← htm'] at hchanges
      cases e' with
      | abort => exact absurd rfl hkept.1
      | txFailed r =>
        cases r with
        | txFAILED results => exact absurd rfl (hkept.2 results)
        | _ => exact hchanges
      | _ => exact hchanges

/-- **Main theorem**: a transaction is applied as a whole or not at all, and its meta says so, if it
takes no exit that keeps the meta after an operation that could store something. If a row has changed
before such an exit, the meta says what was not done. -/
theorem applyTransaction_atomic (hreached : Reached app env s)
    (happly : applyTransaction app env s = .ok () s') :
    (Cleared app env (begun s) → Atomic app env s s') ∧
      ∀ ops t k, KeepsMeta app env (begun s) ops t → t.db.select k ≠ s.db.select k →
        ¬ Atomic app env s s' := by
  have h := hreached.ordered
  have hbegun : Ordered (begun s) := ⟨h.contained.newFrames rfl (fun _ hp => hp) rfl rfl, h.coherent⟩
  have hatomic := (of_wp_ok (wp_applyTransaction (admitsAll_anyCustody app env) h.contained
    h.coherent) happly).2
  refine ⟨fun hcleared => hatomic.mpr fun hleaves => ?_, fun ops t k hkeeps hrow hall => ?_⟩
  · obtain ⟨ops, t, hkeeps, hnot⟩ := keepsMeta_of_leavesChanges hbegun rfl hleaves
    exact hnot (hcleared ops t hkeeps)
  · exact hatomic.mp hall (leavesChanges_of_keepsMeta hbegun rfl hkeeps hrow)

/-! ### Examples -/

/-- The bank adds the signer 11, and asks for the weights of both. -/
def askBoth : LedgerCloseData where
  closeTime := 10
  txs := [signedBy 1 1 1 [⟨none, .SET_OPTIONS {
    signer := some ⟨11, 1, 0⟩, medThreshold := some 2, highThreshold := some 2 }⟩] [.opFEE_NONE]]

/-- A transaction of the bank that both have signed. -/
def bothSigned (seqNum : ℕ) (body : OperationBody) : TransactionEnvelope :=
  ⟨{ sourceAccount := 1, fee := 0, seqNum, operations := [⟨none, body⟩] }, [⟨1, 1⟩, ⟨11, 11⟩],
    [.opFEE_NONE]⟩

/-- One signature is enough again. -/
def askOneOperation : Operation :=
  ⟨none, .SET_OPTIONS { medThreshold := some 1, highThreshold := some 1 }⟩

def askOne : TransactionEnvelope := bothSigned 2 askOneOperation.body

/-- And of a transaction that only sets the inflation destination. -/
def inflateOperation : Operation := ⟨none, .SET_OPTIONS { inflationDest := some 1 }⟩

def inflateWithBoth : TransactionEnvelope := bothSigned 3 inflateOperation.body

def askOneAndInflate : LedgerCloseData where
  closeTime := 20
  txs := [askOne, inflateWithBoth]

/-- A transaction with one operation keeps its meta only where a signature is not used. -/
theorem cleared_of_one (hone : mOperations env = [o])
    (hused : ∀ i < env.signatures.length, SignatureUsed app env 1 s [o] i) : Cleared app env s := by
  intro ops t hkeeps
  cases hkeeps with
  | extra hstart hops hi hunused =>
    rw [hone] at hunused
    exact absurd (hused _ hi) hunused
  | @exception s₁ t u pre post o' b e hstart hsplit hpre hstop hkept =>
    have hlen := congrArg List.length (hone.symm.trans hsplit)
    simp only [List.length_append, List.length_cons, List.length_nil] at hlen
    obtain rfl : ops = [] := List.length_eq_zero_iff.mp (by omega)
    exact fun o ho => absurd ho List.not_mem_nil

/-- A transaction with one operation that does not use a signature, neither in its own check nor in that
of the operation. -/
theorem not_signatureUsed_of_one {account source : AccountFrame} {i : ℕ}
    (hsigning : (resetSignatureTracker env >>= fun _ => loadSigningAccount env (some d)) s =
      .ok (some account) t)
    (hstart : startOperations app env d s = .ok () s₁)
    (hload : loadSource env (some (d + 2)) o.1 (withDelta (d + 1) s₁) = .ok source u)
    (hi : i ∉ (transactionCheck app env account.mAccountEntry).usedSignatures)
    (hi' : i ∉ (operationCheck app env o.1 source.mAccountEntry).usedSignatures) :
    ¬ SignatureUsed app env d s [o] i := by
  have hnone : ¬ SignatureUsed app env d s [] i := by
    rintro ⟨r, hr, hmem⟩
    cases hr with
    | transaction hsigning' =>
      cases hsigning.symm.trans hsigning'
      exact hi hmem
    | operation _ hsplit => exact List.append_ne_nil_of_right_ne_nil _ (by simp) hsplit.symm
  have happend : SignatureUsed app env d s ([] ++ [o]) i ↔ _ :=
    signatureUsed_append hstart (show applyOperations app env (d + 1) [] s₁ = .ok false s₁ from rfl)
      hload i
  exact fun hused => (happend.mp hused).elim hnone fun h => hi' h.2

theorem applyTransaction_atomic_askOne :
    (∃ s s', Reached exampleBank askOne s ∧ applyTransaction exampleBank askOne s = .ok () s' ∧
      Atomic exampleBank askOne s s') ∧
    ∃ s s', Reached exampleBank inflateWithBoth s ∧
      applyTransaction exampleBank inflateWithBoth s = .ok () s' ∧
        ¬ Atomic exampleBank inflateWithBoth s s' := by
  have hrun : returns (runLedgers exampleBank [askBoth]) (fun _ s₀ =>
      returns (beforeTransaction exampleBank askOneAndInflate []) (fun _ s =>
        returns (applyTransaction exampleBank askOne) (fun _ _ => true) s &&
        returns (startOperations exampleBank askOne 1) (fun _ s₁ =>
          returns (loadSource askOne (some 3) askOneOperation) (fun source _ =>
            (operationCheck exampleBank askOne askOneOperation
              source.mAccountEntry).usedSignatures == [0, 1]) (withDelta 2 s₁)) (begun s)) s₀ &&
      returns (beforeTransaction exampleBank askOneAndInflate [askOne]) (fun _ s =>
        returns (applyTransaction exampleBank inflateWithBoth) (fun _ _ => true) s &&
        returns (resetSignatureTracker inflateWithBoth >>= fun _ =>
          loadSigningAccount inflateWithBoth (some 1)) (fun o _ => o.any fun account =>
            decide (1 ∉ (transactionCheck exampleBank inflateWithBoth
              account.mAccountEntry).usedSignatures)) (begun s) &&
        returns (startOperations exampleBank inflateWithBoth 1) (fun _ s₁ =>
          returns (loadSource inflateWithBoth (some 3) inflateOperation) (fun source _ =>
            decide (1 ∉ (operationCheck exampleBank inflateWithBoth inflateOperation
              source.mAccountEntry).usedSignatures)) (withDelta 2 s₁) &&
          returns (applyOperations exampleBank inflateWithBoth 2 (mOperations inflateWithBoth))
            (fun errorEncountered t => !errorEncountered &&
              decide (t.db.select (.account 1) ≠ s.db.select (.account 1))) s₁) (begun s)) s₀) {} =
        true := by
    decide +kernel
  obtain ⟨_, s₀, hledgers, hrun⟩ := exists_of_returns hrun
  obtain ⟨hfirst, hsecond⟩ := Bool.and_eq_true_iff.mp hrun
  constructor
  · obtain ⟨_, s, hbefore, hrun⟩ := exists_of_returns hfirst
    obtain ⟨happly, hstart⟩ := Bool.and_eq_true_iff.mp hrun
    obtain ⟨_, s', happly, -⟩ := exists_of_returns happly
    obtain ⟨_, s₁, hstart, hchecked⟩ := exists_of_returns hstart
    obtain ⟨source, u, hload, hused⟩ := exists_of_returns hchecked
    have hreached : Reached exampleBank askOne s :=
      ⟨[askBoth], askOneAndInflate, [], [inflateWithBoth], s₀, rfl, hledgers, hbefore⟩
    have hcleared : Cleared exampleBank askOne (begun s) := by
      refine cleared_of_one (o := (askOneOperation, some .opFEE_NONE)) rfl fun i hi => ?_
      have hmerge : ¬ IsMerge askOneOperation := fun hmerge => by
        obtain ⟨destination, hbody⟩ := hmerge
        cases hbody
      refine ⟨_, .operation hstart (List.nil_append _).symm rfl hmerge hload, ?_⟩
      rw [eq_of_beq hused]
      rcases i with _ | _ | i
      · decide
      · decide
      · have hi : i + 1 + 1 < 2 := hi
        omega
    exact ⟨s, s', hreached, happly, (applyTransaction_atomic hreached happly).1 hcleared⟩
  · obtain ⟨_, s, hbefore, hrun⟩ := exists_of_returns hsecond
    obtain ⟨hrun, hops⟩ := Bool.and_eq_true_iff.mp hrun
    obtain ⟨happly, hsigning⟩ := Bool.and_eq_true_iff.mp hrun
    obtain ⟨_, s', happly, -⟩ := exists_of_returns happly
    obtain ⟨o, t₀, hsigning, hi⟩ := exists_of_returns hsigning
    obtain ⟨account, rfl, hi⟩ := (Option.any_eq_true _ _).mp hi
    obtain ⟨_, s₁, hstart, hrun⟩ := exists_of_returns hops
    obtain ⟨hload, hops⟩ := Bool.and_eq_true_iff.mp hrun
    obtain ⟨source, u, hload, hi'⟩ := exists_of_returns hload
    obtain ⟨_, t, hops, hrow⟩ := exists_of_returns hops
    obtain ⟨herror, hrow⟩ := Bool.and_eq_true_iff.mp hrow
    rw [Bool.not_eq_true'] at herror
    subst herror
    have hreached : Reached exampleBank inflateWithBoth s :=
      ⟨[askBoth], askOneAndInflate, [askOne], [], s₀, rfl, hledgers, hbefore⟩
    have hkeeps : KeepsMeta exampleBank inflateWithBoth (begun s) (mOperations inflateWithBoth) t :=
      .extra (i := 1) hstart hops (by decide) (not_signatureUsed_of_one
        (o := (inflateOperation, some .opFEE_NONE)) hsigning hstart hload (of_decide_eq_true hi)
          (of_decide_eq_true hi'))
    exact ⟨s, s', hreached, happly,
      (applyTransaction_atomic hreached happly).2 _ t _ hkeeps (of_decide_eq_true hrow)⟩

/-- Both have signed, and the transaction is valid with both signatures. When it is applied one is
enough: the transaction fails, with its changes in the meta. -/
theorem meta_of_unused_signature :
    ∃ s₀ s s', runLedgers exampleBank [askBoth] {} = .ok () s₀ ∧
      (∃ u, TransactionFrame.checkValid exampleBank inflateWithBoth 2 s₀ = .ok true u) ∧
        beforeTransaction exampleBank askOneAndInflate [askOne] s₀ = .ok () s ∧
          applyTransaction exampleBank inflateWithBoth s = .ok () s' ∧
            ¬ Atomic exampleBank inflateWithBoth s s' := by
  have hrun : returns (runLedgers exampleBank [askBoth]) (fun _ s₀ =>
      returns (TransactionFrame.checkValid exampleBank inflateWithBoth 2)
        (fun valid _ => valid) s₀ &&
      returns (beforeTransaction exampleBank askOneAndInflate [askOne]) (fun _ s =>
        returns (applyTransaction exampleBank inflateWithBoth) (fun _ _ => true) s &&
        returns (runOperations exampleBank inflateWithBoth) (fun errorEncountered t =>
          !errorEncountered && !t.mUsedSignatures.all id && t.tm.any fun changes =>
            !changes.isEmpty) (begun s)) s₀) {} = true := by
    decide +kernel
  obtain ⟨_, s₀, hledgers, hrun⟩ := exists_of_returns hrun
  simp only [Bool.and_eq_true] at hrun
  obtain ⟨valid, u, hvalid, rfl⟩ := exists_of_returns hrun.1
  obtain ⟨_, s, hbefore, hrun⟩ := exists_of_returns hrun.2
  simp only [Bool.and_eq_true] at hrun
  obtain ⟨_, s', happly, -⟩ := exists_of_returns hrun.1
  obtain ⟨errorEncountered, t, hops, hleft⟩ := exists_of_returns hrun.2
  have hleaves : LeavesChanges exampleBank inflateWithBoth (begun s) := by
    rw [LeavesChanges, hops]
    simp only [Bool.and_eq_true, Bool.not_eq_true', List.any_eq_true] at hleft
    obtain ⟨⟨herror, hextra⟩, changes, hmem, hne⟩ := hleft
    refine ⟨herror, by simp [hextra], fun hno => ?_⟩
    rw [hno changes hmem] at hne
    cases hne
  have hreached : Reached exampleBank inflateWithBoth s :=
    ⟨[askBoth], askOneAndInflate, [askOne], [], s₀, rfl, hledgers, hbefore⟩
  have h := hreached.ordered
  have hwp := wp_applyTransaction (admitsAll_anyCustody exampleBank inflateWithBoth) h.contained
    h.coherent
  refine ⟨s₀, s, s', hledgers, ⟨u, hvalid⟩, hbefore, happly, fun hatomic => ?_⟩
  exact (of_wp_ok hwp happly).2.mp hatomic hleaves

end SmartCore.Transactions
