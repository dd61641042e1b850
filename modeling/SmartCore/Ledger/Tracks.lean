import SmartCore.Ledger.Database

/-!
# What deltas know of the rows

While a delta is open, the rows change under it. The delta has the keys that it touched, and what is
not in it has not changed (`Tracks.untouched`). This is not obvious, because an entry that is created
and deleted again is not in the delta any more: it is the rows at the start that have to be known not
to have it (`Tracks.new`).

A delta that is opened inside others, and committed into the one around it, keeps this
(`Tracks.opened`, `Tracks.committed`), which rests on what a merge makes of a key
(`mergeEntries_spec`).
-/

namespace SmartCore.Ledger

/-! ## What a delta has of a key -/

namespace LedgerDelta

variable {δ δ' inner : LedgerDelta} {k k' : LedgerKey}

@[simp] theorem mem_touched : k ∈ δ.touched ↔ k ∈ δ.mDelete ∨ k ∈ δ.mNew ∨ k ∈ δ.mMod := by
  simp [touched]

/-- The delta has the same of a key. -/
def Same (k : LedgerKey) (δ δ' : LedgerDelta) : Prop :=
  (k ∈ δ'.mNew ↔ k ∈ δ.mNew) ∧ (k ∈ δ'.mMod ↔ k ∈ δ.mMod) ∧ (k ∈ δ'.mDelete ↔ k ∈ δ.mDelete)

theorem Same.refl (k : LedgerKey) (δ : LedgerDelta) : Same k δ δ := ⟨Iff.rfl, Iff.rfl, Iff.rfl⟩

theorem Same.trans {δ'' : LedgerDelta} (h : Same k δ δ') (h' : Same k δ' δ'') : Same k δ δ'' :=
  ⟨h'.1.trans h.1, h'.2.1.trans h.2.1, h'.2.2.trans h.2.2⟩

theorem Same.touched (h : Same k δ δ') : k ∈ δ'.touched ↔ k ∈ δ.touched := by
  rw [mem_touched, mem_touched, h.1, h.2.1, h.2.2]

theorem modEntry_self {e : LedgerEntry} (h : δ.modEntry e = some δ') :
    (LedgerEntryKey e ∈ δ'.mNew ↔ LedgerEntryKey e ∈ δ.mNew) ∧
      (LedgerEntryKey e ∈ δ'.mDelete ↔ LedgerEntryKey e ∈ δ.mDelete) ∧
        (LedgerEntryKey e ∈ δ'.mNew ∨ LedgerEntryKey e ∈ δ'.mMod) := by
  unfold modEntry at h
  simp only at h
  split_ifs at h with hmod hnew hdel <;> cases h <;> simp_all

theorem modEntry_other {e : LedgerEntry} (h : δ.modEntry e = some δ')
    (hk : k ≠ LedgerEntryKey e) : Same k δ δ' := by
  unfold modEntry at h
  simp only at h
  unfold Same
  split_ifs at h with hmod hnew hdel <;> cases h <;> simp [Std.ExtTreeMap.mem_insert, hk.symm]

theorem addEntry_self {e : LedgerEntry} (h : δ.addEntry e = some δ') :
    LedgerEntryKey e ∈ δ'.touched ∧ LedgerEntryKey e ∉ δ'.mDelete ∧
      (LedgerEntryKey e ∈ δ'.mNew → LedgerEntryKey e ∈ δ.mNew ∨ LedgerEntryKey e ∉ δ.touched) := by
  unfold addEntry at h
  simp only at h
  split_ifs at h with hdel hin <;> cases h <;> simp_all

theorem addEntry_other {e : LedgerEntry} (h : δ.addEntry e = some δ')
    (hk : k ≠ LedgerEntryKey e) : Same k δ δ' := by
  unfold addEntry at h
  simp only at h
  unfold Same
  split_ifs at h with hdel hin <;> cases h <;>
    simp [Std.ExtTreeMap.mem_insert, Std.ExtTreeMap.mem_erase, hk.symm]

theorem deleteEntry_self (h : δ.deleteEntry k = some δ') :
    k ∉ δ'.mNew ∧ (k ∉ δ'.touched → k ∈ δ.mNew) := by
  unfold deleteEntry at h
  split_ifs at h with hnew hdel <;> cases h <;> simp_all

theorem deleteEntry_other (h : δ.deleteEntry k' = some δ') (hk : k ≠ k') : Same k δ δ' := by
  unfold deleteEntry at h
  unfold Same
  split_ifs at h with hnew hdel <;> cases h <;>
    simp [Std.ExtTreeMap.mem_insert, Std.ExtTreeMap.mem_erase, hk.symm]

/-- The headers of the delta are as they were. -/
def SameHeader (δ δ' : LedgerDelta) : Prop :=
  δ'.mCurrentHeader = δ.mCurrentHeader ∧ δ'.mPreviousHeaderValue = δ.mPreviousHeaderValue

theorem modEntry_header {e : LedgerEntry} (h : δ.modEntry e = some δ') : SameHeader δ δ' := by
  unfold modEntry at h
  simp only at h
  split_ifs at h <;> cases h <;> exact ⟨rfl, rfl⟩

theorem addEntry_header {e : LedgerEntry} (h : δ.addEntry e = some δ') : SameHeader δ δ' := by
  unfold addEntry at h
  simp only at h
  split_ifs at h <;> cases h <;> exact ⟨rfl, rfl⟩

theorem deleteEntry_header (h : δ.deleteEntry k = some δ') : SameHeader δ δ' := by
  unfold deleteEntry at h
  split_ifs at h <;> cases h <;> exact ⟨rfl, rfl⟩

theorem foldlM_header {β : Type} {op : LedgerDelta → β → Option LedgerDelta}
    (hop : ∀ δ b δ', op δ b = some δ' → SameHeader δ δ') {bs : List β} {δ δ' : LedgerDelta}
    (h : bs.foldlM op δ = some δ') : SameHeader δ δ' := by
  induction bs generalizing δ with
  | nil =>
    obtain rfl := Option.some.inj h
    exact ⟨rfl, rfl⟩
  | cons b bs ih =>
    rw [List.foldlM_cons, Option.bind_eq_bind, Option.bind_eq_some_iff] at h
    obtain ⟨δ₁, h₁, h⟩ := h
    have hfirst := hop δ b δ₁ h₁
    have hrest := ih h
    exact ⟨hrest.1.trans hfirst.1, hrest.2.trans hfirst.2⟩

theorem recordPrevious_header (δ other : LedgerDelta) (k : LedgerKey) :
    SameHeader δ (δ.recordPrevious other k) := by
  unfold recordPrevious
  split <;> exact ⟨rfl, rfl⟩

theorem mergeEntries_header (h : δ.mergeEntries inner = some δ') : SameHeader δ δ' := by
  simp only [mergeEntries, Option.bind_eq_bind, Option.bind_eq_some_iff] at h
  obtain ⟨δ₁, h₁, δ₂, h₂, h₃⟩ := h
  have hdeleted : SameHeader δ δ₁ := by
    refine foldlM_header (fun δ k δ' hδ' => ?_) h₁
    obtain ⟨δ₀, h₀, rfl⟩ := Option.map_eq_some_iff.mp hδ'
    have hrecord := recordPrevious_header δ₀ inner k
    have hdel := deleteEntry_header h₀
    exact ⟨hrecord.1.trans hdel.1, hrecord.2.trans hdel.2⟩
  have hnew : SameHeader δ₁ δ₂ := foldlM_header (fun _ _ _ => addEntry_header) h₂
  have hmod : SameHeader δ₂ δ' := by
    refine foldlM_header (fun δ m δ' hδ' => ?_) h₃
    obtain ⟨δ₀, h₀, rfl⟩ := Option.map_eq_some_iff.mp hδ'
    have hrecord := recordPrevious_header δ₀ inner m.1
    have hmod := modEntry_header h₀
    exact ⟨hrecord.1.trans hmod.1, hrecord.2.trans hmod.2⟩
  exact ⟨(hmod.1.trans hnew.1).trans hdeleted.1, (hmod.2.trans hnew.2).trans hdeleted.2⟩

/-! ## Merging -/

/-- The entries of the delta are at their own keys, and what is deleted is not there too. -/
structure WellFormed (δ : LedgerDelta) : Prop where
  new : ∀ k e, δ.mNew[k]? = some e → LedgerEntryKey e = k
  mod : ∀ k e, δ.mMod[k]? = some e → LedgerEntryKey e = k
  disjoint : ∀ k ∈ δ.mDelete, k ∉ δ.mNew ∧ k ∉ δ.mMod

theorem WellFormed.ofHeader (header : LedgerHeader) (b : Bool) :
    (LedgerDelta.ofHeader header b).WellFormed := by
  constructor <;> simp [LedgerDelta.ofHeader]

theorem WellFormed.addEntry {e : LedgerEntry} (hδ : δ.WellFormed) (h : δ.addEntry e = some δ') :
    δ'.WellFormed := by
  unfold LedgerDelta.addEntry at h
  simp only at h
  obtain ⟨hnew, hmod, hdis⟩ := hδ
  split_ifs at h with hdel hin <;> cases h <;>
    refine ⟨fun k e' he' => ?_, fun k e' he' => ?_, fun k hk => ?_⟩ <;> grind

theorem WellFormed.modEntry {e : LedgerEntry} (hδ : δ.WellFormed) (h : δ.modEntry e = some δ') :
    δ'.WellFormed := by
  unfold LedgerDelta.modEntry at h
  simp only at h
  obtain ⟨hnew, hmod, hdis⟩ := hδ
  split_ifs at h with hin hin' hdel <;> cases h <;>
    refine ⟨fun k e' he' => ?_, fun k e' he' => ?_, fun k hk => ?_⟩ <;> grind

theorem WellFormed.deleteEntry (hδ : δ.WellFormed) (h : δ.deleteEntry k = some δ') :
    δ'.WellFormed := by
  unfold LedgerDelta.deleteEntry at h
  obtain ⟨hnew, hmod, hdis⟩ := hδ
  split_ifs at h with hin hdel <;> cases h <;>
    refine ⟨fun k' e' he' => ?_, fun k' e' he' => ?_, fun k' hk' => ?_⟩ <;> grind

theorem same_recordPrevious (k k' : LedgerKey) (δ other : LedgerDelta) :
    Same k δ (δ.recordPrevious other k') := by
  unfold recordPrevious
  split <;> exact Same.refl k δ

theorem WellFormed.recordPrevious (hδ : δ.WellFormed) (other : LedgerDelta) (k : LedgerKey) :
    (δ.recordPrevious other k).WellFormed := by
  unfold LedgerDelta.recordPrevious
  split
  · exact ⟨hδ.new, hδ.mod, hδ.disjoint⟩
  · exact hδ

theorem mergeDeleted_cons {other : LedgerDelta} {ks : List LedgerKey}
    (h : δ.mergeDeleted other (k :: ks) = some δ') :
    ∃ δ₁, δ.deleteEntry k = some δ₁ ∧
      (δ₁.recordPrevious other k).mergeDeleted other ks = some δ' := by
  simp only [mergeDeleted, List.foldlM_cons, Option.bind_eq_bind, Option.bind_eq_some_iff,
    Option.map_eq_some_iff] at h
  obtain ⟨_, ⟨δ₁, h₁, rfl⟩, h⟩ := h
  exact ⟨δ₁, h₁, h⟩

/-- What the merge of deleted keys makes of a key. -/
theorem mergeDeleted_spec {other : LedgerDelta} {ks : List LedgerKey} (hδ : δ.WellFormed)
    (h : δ.mergeDeleted other ks = some δ') :
    δ'.WellFormed ∧ (k ∉ ks → Same k δ δ') ∧
      (k ∈ ks → k ∉ δ'.mNew ∧ (k ∉ δ'.touched → k ∈ δ.mNew)) := by
  induction ks generalizing δ with
  | nil =>
    obtain rfl := Option.some.inj h
    exact ⟨hδ, fun _ => Same.refl k δ, fun hk => absurd hk List.not_mem_nil⟩
  | cons k₁ ks ih =>
    obtain ⟨δ₁, h₁, h⟩ := mergeDeleted_cons h
    have hrecord := same_recordPrevious k k₁ δ₁ other
    obtain ⟨hkeyed, hout, hin⟩ := ih ((hδ.deleteEntry h₁).recordPrevious other k₁) h
    refine ⟨hkeyed, fun hk => ?_, fun hk => ?_⟩
    · rw [List.mem_cons, not_or] at hk
      exact ((deleteEntry_other h₁ hk.1).trans hrecord).trans (hout hk.2)
    · by_cases hrest : k ∈ ks
      · obtain ⟨hnew, htouched⟩ := hin hrest
        refine ⟨hnew, fun hnot => ?_⟩
        have hmem := hrecord.1.mp (htouched hnot)
        by_cases hk₁ : k = k₁
        · subst hk₁
          exact absurd hmem (deleteEntry_self h₁).1
        · exact (deleteEntry_other h₁ hk₁).1.mp hmem
      · obtain rfl : k = k₁ := (List.mem_cons.mp hk).resolve_right hrest
        have hsame := hrecord.trans (hout hrest)
        obtain ⟨hnew, htouched⟩ := deleteEntry_self h₁
        exact ⟨fun hmem => hnew (hsame.1.mp hmem), fun hnot =>
          htouched fun hmem => hnot (hsame.touched.mpr hmem)⟩

/-- What the merge of new entries makes of a key. -/
theorem mergeNew_spec {es : List LedgerEntry} (hδ : δ.WellFormed) (h : δ.mergeNew es = some δ') :
    δ'.WellFormed ∧ (k ∉ es.map LedgerEntryKey → Same k δ δ') ∧
      (k ∈ es.map LedgerEntryKey → k ∈ δ'.touched ∧ k ∉ δ'.mDelete ∧
        (k ∈ δ'.mNew → k ∈ δ.mNew ∨ k ∉ δ.touched)) := by
  induction es generalizing δ with
  | nil =>
    obtain rfl := Option.some.inj h
    exact ⟨hδ, fun _ => Same.refl k δ, fun hk => absurd hk List.not_mem_nil⟩
  | cons e es ih =>
    simp only [mergeNew, List.foldlM_cons, Option.bind_eq_bind, Option.bind_eq_some_iff] at h
    obtain ⟨δ₁, h₁, h⟩ := h
    obtain ⟨hkeyed, hout, hin⟩ := ih (hδ.addEntry h₁) h
    rw [List.map_cons]
    refine ⟨hkeyed, fun hk => ?_, fun hk => ?_⟩
    · rw [List.mem_cons, not_or] at hk
      exact (addEntry_other h₁ hk.1).trans (hout hk.2)
    · by_cases hrest : k ∈ es.map LedgerEntryKey
      · obtain ⟨htouched, hdel, hnew⟩ := hin hrest
        refine ⟨htouched, hdel, fun hmem => ?_⟩
        by_cases hk₁ : k = LedgerEntryKey e
        · subst hk₁
          obtain ⟨htouched₁, -, hnew₁⟩ := addEntry_self h₁
          exact (hnew hmem).elim hnew₁ fun hnot => absurd htouched₁ hnot
        · have hsame := addEntry_other h₁ hk₁
          exact (hnew hmem).imp hsame.1.mp fun hnot hin => hnot (hsame.touched.mpr hin)
      · obtain rfl : k = LedgerEntryKey e := (List.mem_cons.mp hk).resolve_right hrest
        have hsame := hout hrest
        obtain ⟨htouched, hdel, hnew⟩ := addEntry_self h₁
        exact ⟨hsame.touched.mpr htouched, fun hmem => hdel (hsame.2.2.mp hmem),
          fun hmem => hnew (hsame.1.mp hmem)⟩

/-- What the merge of modified entries makes of a key. -/
theorem mergeModified_spec {other : LedgerDelta} {ms : List (LedgerKey × LedgerEntry)}
    (hδ : δ.WellFormed) (h : δ.mergeModified other ms = some δ') :
    δ'.WellFormed ∧ (k ∈ δ'.mNew ↔ k ∈ δ.mNew) ∧ (k ∈ δ'.mDelete ↔ k ∈ δ.mDelete) ∧
      (k ∈ δ.mNew ∨ k ∈ δ.mMod → k ∈ δ'.mNew ∨ k ∈ δ'.mMod) ∧
        (k ∈ ms.map (fun m => LedgerEntryKey m.2) → k ∈ δ'.mNew ∨ k ∈ δ'.mMod) ∧
          (k ∉ ms.map (fun m => LedgerEntryKey m.2) → Same k δ δ') := by
  induction ms generalizing δ with
  | nil =>
    obtain rfl := Option.some.inj h
    exact ⟨hδ, Iff.rfl, Iff.rfl, id, fun hk => absurd hk List.not_mem_nil, fun _ => Same.refl k δ⟩
  | cons m ms ih =>
    simp only [mergeModified, List.foldlM_cons, Option.bind_eq_bind, Option.bind_eq_some_iff,
      Option.map_eq_some_iff] at h
    obtain ⟨_, ⟨δ₁, h₁, rfl⟩, h⟩ := h
    have hrecord := same_recordPrevious k m.1 δ₁ other
    obtain ⟨hkeyed, hnew, hdel, hkeep, hin, hout⟩ :=
      ih ((hδ.modEntry h₁).recordPrevious other m.1) h
    have hfirst : (k ∈ δ₁.mNew ↔ k ∈ δ.mNew) ∧ (k ∈ δ₁.mDelete ↔ k ∈ δ.mDelete) ∧
        (k ∈ δ.mNew ∨ k ∈ δ.mMod → k ∈ δ₁.mNew ∨ k ∈ δ₁.mMod) ∧
          (k = LedgerEntryKey m.2 → k ∈ δ₁.mNew ∨ k ∈ δ₁.mMod) := by
      by_cases hk : k = LedgerEntryKey m.2
      · subst hk
        obtain ⟨hnew₁, hdel₁, hlive₁⟩ := modEntry_self h₁
        exact ⟨hnew₁, hdel₁, fun _ => hlive₁, fun _ => hlive₁⟩
      · have hsame := modEntry_other h₁ hk
        exact ⟨hsame.1, hsame.2.2, Or.imp hsame.1.mpr hsame.2.1.mpr, fun heq => absurd heq hk⟩
    obtain ⟨hnew₁, hdel₁, hkeep₁, hself⟩ := hfirst
    have hlive := Or.imp hrecord.1.mpr hrecord.2.1.mpr
    refine ⟨hkeyed, (hnew.trans hrecord.1).trans hnew₁, (hdel.trans hrecord.2.2).trans hdel₁,
      fun hk => hkeep (hlive (hkeep₁ hk)), fun hk => ?_, fun hk => ?_⟩
    · rw [List.map_cons, List.mem_cons] at hk
      exact hk.elim (fun heq => hkeep (hlive (hself heq))) hin
    · rw [List.map_cons, List.mem_cons, not_or] at hk
      exact ((modEntry_other h₁ hk.1).trans hrecord).trans (hout hk.2)

theorem mem_map_key_toList {t : Table LedgerKey LedgerEntry}
    (ht : ∀ k e, t[k]? = some e → LedgerEntryKey e = k) :
    k ∈ t.toList.map (fun row => LedgerEntryKey row.2) ↔ k ∈ t := by
  have hkeys : t.toList.map (fun row => LedgerEntryKey row.2) = t.keys := by
    rw [← Std.ExtTreeMap.map_fst_toList_eq_keys]
    refine List.map_congr_left fun row hrow => ?_
    exact ht _ _ (Std.ExtTreeMap.mem_toList_iff_getElem?_eq_some.mp hrow)
  rw [hkeys, Std.ExtTreeMap.mem_keys]

/-- **What a merge makes of a key.** It is new if it was, or if it is new in the inner delta and the
outer one did not touch it. It is deleted only if the last to touch it deleted it. It is not touched
only if neither touched it, or the inner one deleted what the outer one had created. -/
theorem mergeEntries_spec (hδ : δ.WellFormed) (hinner : inner.WellFormed)
    (h : δ.mergeEntries inner = some δ') :
    δ'.WellFormed ∧ ∀ k, (k ∈ δ'.mNew → k ∈ δ.mNew ∨ k ∈ inner.mNew ∧ k ∉ δ.touched) ∧
      (k ∈ δ'.mDelete → k ∈ inner.mDelete ∨ k ∈ δ.mDelete ∧ k ∉ inner.touched) ∧
        (k ∉ δ'.touched → k ∉ inner.touched ∧ k ∉ δ.touched ∨ k ∈ inner.mDelete ∧ k ∈ δ.mNew) := by
  simp only [mergeEntries, Option.bind_eq_bind, Option.bind_eq_some_iff] at h
  obtain ⟨δ₁, h₁, δ₂, h₂, h₃⟩ := h
  have hwf₁ := (mergeDeleted_spec (k := .account 0) hδ h₁).1
  have hwf₂ := (mergeNew_spec (k := .account 0) hwf₁ h₂).1
  refine ⟨(mergeModified_spec (k := .account 0) hwf₂ h₃).1, fun k => ?_⟩
  obtain ⟨-, hdelout, hdelin⟩ := mergeDeleted_spec (k := k) hδ h₁
  obtain ⟨-, hnewout, hnewin⟩ := mergeNew_spec (k := k) hwf₁ h₂
  obtain ⟨hwf, hmodnew, hmoddel, hmodlive, hmodin, hmodout⟩ := mergeModified_spec (k := k) hwf₂ h₃
  rw [Std.ExtTreeMap.mem_keys] at hdelout hdelin
  rw [List.map_map] at hnewout hnewin
  have hnewkeys : k ∈ List.map (LedgerEntryKey ∘ fun row => row.2) inner.mNew.toList ↔
      k ∈ inner.mNew := mem_map_key_toList hinner.new
  rw [hnewkeys] at hnewout hnewin
  rw [mem_map_key_toList hinner.mod] at hmodin hmodout
  have hdis := hinner.disjoint k
  have hwfdis := hwf.disjoint k
  simp only [Same, mem_touched] at hdelout hdelin hnewout hnewin hmodout ⊢
  refine ⟨fun hk => ?_, fun hk => ?_, fun hk => ?_⟩
  · grind
  · grind
  · grind

end LedgerDelta

/-! ## What open deltas know of a base -/

/-- The deltas from `lo` to `e` know where the rows differ from those of `base`, which is what they
were when the delta `lo` was opened. -/
structure Tracks (base : Database) (lo e : ℕ) (s : LedgerState) : Prop where
  wf : ∀ j, lo ≤ j → j ≤ e → (s.deltas j).WellFormed
  untouched : ∀ k, (∀ j, lo ≤ j → j ≤ e → k ∉ (s.deltas j).touched) →
    s.db.select k = base.select k
  /-- what is new in a delta is new, unless a delta around it has deleted it -/
  new : ∀ k j, lo ≤ j → j ≤ e → k ∈ (s.deltas j).mNew →
    (∃ i, lo ≤ i ∧ i < j ∧ k ∈ (s.deltas i).touched) ∨ base.select k = none
  deleted : ∀ k j, lo ≤ j → j ≤ e → k ∈ (s.deltas j).mDelete →
    (∀ i, j < i → i ≤ e → k ∉ (s.deltas i).touched) → s.db.select k = none

/-- An entry in the cache that differs from the base is one that the deltas have touched. -/
def CacheTracks (base : Database) (lo e : ℕ) (s : LedgerState) : Prop :=
  ∀ k v, (k, v) ∈ s.mEntryCache → s.db.select k ≠ base.select k →
    ∃ j, lo ≤ j ∧ j ≤ e ∧ k ∈ (s.deltas j).touched

theorem Tracks.cacheTracks {base : Database} {lo e : ℕ} {s : LedgerState}
    (h : Tracks base lo e s) : CacheTracks base lo e s := by
  intro k v _ hne
  by_contra hnot
  push Not at hnot
  exact hne (h.untouched k fun j hlo he => hnot j hlo he)

namespace Tracks

variable {base : Database} {lo e j : ℕ} {s s' : LedgerState} {k : LedgerKey} {δ : LedgerDelta}

theorem congr (h : Tracks base lo e s) (hrow : ∀ k, s'.db.select k = s.db.select k)
    (hwf : ∀ j, lo ≤ j → j ≤ e → (s'.deltas j).WellFormed)
    (hsame : ∀ k, ∀ j ≤ e, (s.deltas j).Same k (s'.deltas j)) : Tracks base lo e s' where
  wf := hwf
  untouched k hk := by
    rw [hrow]
    exact h.untouched k fun j hlo he hmem => hk j hlo he ((hsame k j he).touched.mpr hmem)
  new k j hlo he hk := by
    refine (h.new k j hlo he ((hsame k j he).1.mp hk)).imp_left fun hi => ?_
    obtain ⟨i, hlo', hi, hmem⟩ := hi
    exact ⟨i, hlo', hi, (hsame k i (by omega)).touched.mpr hmem⟩
  deleted k j hlo he hk hnot := by
    rw [hrow]
    exact h.deleted k j hlo he ((hsame k j he).2.2.mp hk) fun i hi hie hmem =>
      hnot i hi hie ((hsame k i hie).touched.mpr hmem)

/-- A scope starts with a delta that has nothing. -/
theorem start (header : LedgerHeader) (b : Bool) (hdb : s'.db = s.db)
    (hδ : s'.deltas lo = .ofHeader header b) : Tracks s.db lo lo s' := by
  have hj : ∀ j, lo ≤ j → j ≤ lo → s'.deltas j = .ofHeader header b := fun j h₁ h₂ => by
    rw [show j = lo by omega, hδ]
  refine ⟨fun j h₁ h₂ => ?_, fun k _ => by rw [hdb], fun k j h₁ h₂ hk => ?_,
    fun k j h₁ h₂ hk => ?_⟩
  · rw [hj j h₁ h₂]
    exact .ofHeader header b
  · rw [hj j h₁ h₂] at hk
    simp [LedgerDelta.ofHeader] at hk
  · rw [hj j h₁ h₂] at hk
    simp [LedgerDelta.ofHeader] at hk

/-- A delta that is opened has nothing. -/
theorem opened (h : Tracks base lo e s) (header : LedgerHeader) (b : Bool) (hdb : s'.db = s.db)
    (hδ : s'.deltas = Function.update s.deltas (e + 1) (.ofHeader header b)) :
    Tracks base lo (e + 1) s' := by
  have hself : s'.deltas (e + 1) = .ofHeader header b := by rw [hδ, Function.update_self]
  have hother : ∀ j ≤ e, s'.deltas j = s.deltas j := fun j hj => by
    rw [hδ, Function.update_of_ne (by omega)]
  have hnothing : ∀ k, k ∉ (s'.deltas (e + 1)).touched := fun k => by
    rw [hself]
    simp [LedgerDelta.ofHeader]
  refine ⟨fun j hlo he => ?_, fun k hk => ?_, fun k j hlo he hk => ?_, fun k j hlo he hk hnot => ?_⟩
  · by_cases hj : j = e + 1
    · rw [hj, hself]
      exact .ofHeader header b
    · rw [hother j (by omega)]
      exact h.wf j hlo (by omega)
  · rw [hdb]
    refine h.untouched k fun j hlo he hmem => hk j hlo (by omega) ?_
    rw [hother j he]
    exact hmem
  · have hj : j ≤ e := by
      by_contra hj
      obtain rfl : j = e + 1 := by omega
      exact hnothing k (LedgerDelta.mem_touched.mpr (Or.inr (Or.inl hk)))
    rw [hother j hj] at hk
    refine (h.new k j hlo hj hk).imp_left fun hi => ?_
    obtain ⟨i, hlo', hij, hmem⟩ := hi
    exact ⟨i, hlo', hij, by rwa [hother i (by omega)]⟩
  · have hj : j ≤ e := by
      by_contra hj
      obtain rfl : j = e + 1 := by omega
      exact hnothing k (LedgerDelta.mem_touched.mpr (Or.inl hk))
    rw [hother j hj] at hk
    rw [hdb]
    refine h.deleted k j hlo hj hk fun i hji hie hmem => hnot i hji (by omega) ?_
    rw [hother i hie]
    exact hmem

/-- The delta `e + 1` is committed into the delta `e`. -/
theorem committed (h : Tracks base lo (e + 1) s) (hlo : lo ≤ e) (hdb : s'.db = s.db)
    (hmerge : (s.deltas e).mergeEntries (s.deltas (e + 1)) = some δ)
    (hwf : (s'.deltas e).WellFormed) (hsame : ∀ k, δ.Same k (s'.deltas e))
    (hother : ∀ j < e, s'.deltas j = s.deltas j) : Tracks base lo e s' := by
  obtain ⟨-, hspec⟩ := LedgerDelta.mergeEntries_spec (h.wf e hlo (by omega))
    (h.wf (e + 1) (by omega) le_rfl) hmerge
  refine ⟨fun j hj he => ?_, fun k hk => ?_, fun k j hj he hk => ?_, fun k j hj he hk hnot => ?_⟩
  · by_cases hje : j = e
    · rw [hje]
      exact hwf
    · rw [hother j (by omega)]
      exact h.wf j hj (by omega)
  · have hδ : k ∉ δ.touched := fun hmem => hk e hlo le_rfl ((hsame k).touched.mpr hmem)
    rw [hdb]
    rcases (hspec k).2.2 hδ with ⟨hinner, houter⟩ | ⟨hdel, hnew⟩
    · refine h.untouched k fun j hj he => ?_
      by_cases hje : j = e + 1
      · rw [hje]
        exact hinner
      · by_cases hje' : j = e
        · rw [hje']
          exact houter
        · rw [← hother j (by omega)]
          exact hk j hj (by omega)
    · -- created and deleted again: the base does not have it
      rw [h.deleted k (e + 1) (by omega) le_rfl hdel fun i hi hie => by omega]
      refine ((h.new k e hlo (by omega) hnew).resolve_left fun hi => ?_).symm
      obtain ⟨i, hi, hie, hmem⟩ := hi
      exact hk i hi (by omega) (by rwa [hother i hie])
  · by_cases hje : j = e
    · subst hje
      rcases (hspec k).1 ((hsame k).1.mp hk) with hnew | ⟨hnew, hnot⟩
      · refine (h.new k j hlo (by omega) hnew).imp_left fun hi => ?_
        obtain ⟨i, hi, hij, hmem⟩ := hi
        exact ⟨i, hi, hij, by rwa [hother i hij]⟩
      · refine (h.new k (j + 1) (by omega) le_rfl hnew).imp_left fun hi => ?_
        obtain ⟨i, hi, hij, hmem⟩ := hi
        have hne : i ≠ j := fun heq => hnot (heq ▸ hmem)
        exact ⟨i, hi, by omega, by rwa [hother i (by omega)]⟩
    · rw [hother j (by omega)] at hk
      refine (h.new k j hj (by omega) hk).imp_left fun hi => ?_
      obtain ⟨i, hi, hij, hmem⟩ := hi
      exact ⟨i, hi, hij, by rwa [hother i (by omega)]⟩
  · rw [hdb]
    by_cases hje : j = e
    · subst hje
      rcases (hspec k).2.1 ((hsame k).2.2.mp hk) with hdel | ⟨hdel, hinner⟩
      · exact h.deleted k (j + 1) (by omega) le_rfl hdel fun i hi hie => by omega
      · refine h.deleted k j hlo (by omega) hdel fun i hi hie => ?_
        rw [show i = j + 1 by omega]
        exact hinner
    · rw [hother j (by omega)] at hk
      have hδ : k ∉ δ.touched := fun hmem =>
        hnot e (by omega) le_rfl ((hsame k).touched.mpr hmem)
      rcases (hspec k).2.2 hδ with ⟨hinner, houter⟩ | ⟨hdel, -⟩
      · refine h.deleted k j hj (by omega) hk fun i hi hie => ?_
        by_cases hie' : i = e + 1
        · rw [hie']
          exact hinner
        · by_cases hie'' : i = e
          · rw [hie'']
            exact houter
          · rw [← hother i (by omega)]
            exact hnot i hi (by omega)
      · exact h.deleted k (e + 1) (by omega) le_rfl hdel fun i hi hie => by omega

end Tracks

end SmartCore.Ledger
