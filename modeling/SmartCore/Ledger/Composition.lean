import SmartCore.Ledger.Database

/-!
# Composition of deltas

What a delta says of a ledger is its *net effect*: `NetEffect base δ now` says that `δ` takes the
entries `base` to the entries `now`. Every call keeps this, and `mergeEntries` composes two
effects (`NetEffect.mergeEntries`), so it carries through any nesting of deltas that are committed
or rolled back (`runScript_netEffect`).

The calls have to be well formed: an entry is added only if it does not exist, and modified or
deleted only if it does.
-/

namespace SmartCore.Ledger

/-- The entries of a ledger. -/
abbrev EntryMap := LedgerKey → Option LedgerEntry

/-- Every entry is at its own key. -/
def Keyed (m : EntryMap) : Prop := ∀ k e, m k = some e → LedgerEntryKey e = k

/-- `δ` takes the entries `base` to the entries `now`. -/
structure NetEffect (base : EntryMap) (δ : LedgerDelta) (now : EntryMap) : Prop where
  new : ∀ k e, δ.mNew[k]? = some e ↔ base k = none ∧ now k = some e
  mod : ∀ k e, δ.mMod[k]? = some e → (base k).isSome ∧ now k = some e
  del : ∀ k, k ∈ δ.mDelete ↔ (base k).isSome ∧ now k = none
  rest : ∀ k, k ∉ δ.mNew → k ∉ δ.mMod → k ∉ δ.mDelete → now k = base k

namespace NetEffect

variable {base now : EntryMap} {δ : LedgerDelta} {k : LedgerKey} {e : LedgerEntry}

theorem fresh (base : EntryMap) (header : LedgerHeader) (b : Bool) :
    NetEffect base (.ofHeader header b) base where
  new k e := by
    simp only [LedgerDelta.ofHeader, Std.ExtTreeMap.getElem?_empty, reduceCtorEq, false_iff]
    rintro ⟨h₁, h₂⟩
    rw [h₁] at h₂
    cases h₂
  mod k e h := by simp [LedgerDelta.ofHeader] at h
  del k := by
    simp only [LedgerDelta.ofHeader, Std.ExtTreeMap.not_mem_empty, false_iff]
    rintro ⟨h₁, h₂⟩
    rw [h₂] at h₁
    cases h₁
  rest k _ _ _ := rfl

/-- The effect is in the three maps and not in the rest of the delta. -/
theorem congr {δ' : LedgerDelta} (h : NetEffect base δ now) (hn : δ'.mNew = δ.mNew)
    (hm : δ'.mMod = δ.mMod) (hd : δ'.mDelete = δ.mDelete) : NetEffect base δ' now where
  new k e := by rw [hn]; exact h.new k e
  mod k e := by rw [hm]; exact h.mod k e
  del k := by rw [hd]; exact h.del k
  rest k := by rw [hn, hm, hd]; exact h.rest k

theorem mem_new_iff (h : NetEffect base δ now) :
    k ∈ δ.mNew ↔ base k = none ∧ (now k).isSome := by
  rw [Std.ExtTreeMap.mem_iff_isSome_getElem?, Option.isSome_iff_exists, Option.isSome_iff_exists]
  constructor
  · rintro ⟨e, he⟩
    have := (h.new k e).mp he
    exact ⟨this.1, e, this.2⟩
  · rintro ⟨hb, e, he⟩
    exact ⟨e, (h.new k e).mpr ⟨hb, he⟩⟩

theorem of_mem_mod (h : NetEffect base δ now) (hk : k ∈ δ.mMod) :
    (base k).isSome ∧ (now k).isSome := by
  rw [Std.ExtTreeMap.mem_iff_isSome_getElem?, Option.isSome_iff_exists] at hk
  obtain ⟨e, he⟩ := hk
  have := h.mod k e he
  exact ⟨this.1, by rw [this.2]; rfl⟩

/-- The keys of the three maps are disjoint. -/
theorem disjoint (h : NetEffect base δ now) (k : LedgerKey) :
    ¬ (k ∈ δ.mNew ∧ k ∈ δ.mMod) ∧ ¬ (k ∈ δ.mNew ∧ k ∈ δ.mDelete) ∧
      ¬ (k ∈ δ.mMod ∧ k ∈ δ.mDelete) := by
  refine ⟨fun hk => ?_, fun hk => ?_, fun hk => ?_⟩
  · have h₁ := h.mem_new_iff.mp hk.1
    have h₂ := h.of_mem_mod hk.2
    rw [h₁.1] at h₂
    cases h₂.1
  · have h₁ := h.mem_new_iff.mp hk.1
    have h₂ := (h.del k).mp hk.2
    rw [h₁.1] at h₂
    cases h₂.1
  · have h₁ := h.of_mem_mod hk.1
    have h₂ := (h.del k).mp hk.2
    rw [h₂.2] at h₁
    cases h₁.2

/-! ## The calls -/

/-- A call changes the maps at one key only, and what they have there is up to the base. -/
theorem update {δ' : LedgerDelta} {v : Option LedgerEntry} (h : NetEffect base δ now)
    (hnew : ∀ k', δ'.mNew[k']? =
      if k' = k then if base k = none then v else none else δ.mNew[k']?)
    (hmod : ∀ k', δ'.mMod[k']? =
      if k' = k then if base k = none then none else v else δ.mMod[k']?)
    (hdel : ∀ k', k' ∈ δ'.mDelete ↔
      if k' = k then base k ≠ none ∧ v = none else k' ∈ δ.mDelete) :
    NetEffect base δ' (Function.update now k v) := by
  refine ⟨fun k' e' => ?_, fun k' e' => ?_, fun k' => ?_, fun k' => ?_⟩
  · have := h.new k' e'
    grind [Function.update_apply, Option.isSome_iff_ne_none]
  · have := h.mod k' e'
    grind [Function.update_apply, Option.isSome_iff_ne_none]
  · have := h.del k'
    grind [Function.update_apply, Option.isSome_iff_ne_none]
  · intro hn hm hd
    have hn' := (Std.ExtTreeMap.getElem?_eq_none hn).symm.trans (hnew k')
    have hm' := (Std.ExtTreeMap.getElem?_eq_none hm).symm.trans (hmod k')
    have := h.rest k'
    grind [Function.update_apply]

theorem addEntry (h : NetEffect base δ now) (hk : now (LedgerEntryKey e) = none) :
    ∃ δ', δ.addEntry e = some δ' ∧
      NetEffect base δ' (Function.update now (LedgerEntryKey e) (some e)) ∧
        δ'.mCurrentHeader = δ.mCurrentHeader ∧
          δ'.mPreviousHeaderValue = δ.mPreviousHeaderValue := by
  set k := LedgerEntryKey e with hkdef
  have hnew : k ∉ δ.mNew := fun hmem => by
    have := (h.mem_new_iff.mp hmem).2
    rw [hk] at this
    cases this
  have hmod : k ∉ δ.mMod := fun hmem => by
    have := (h.of_mem_mod hmem).2
    rw [hk] at this
    cases this
  unfold LedgerDelta.addEntry
  simp only [← hkdef]
  by_cases hdel : k ∈ δ.mDelete
  · -- deleted before: the base has it, so it is a modification
    have hbase := ((h.del k).mp hdel).1
    rw [if_pos hdel]
    exact ⟨_, rfl, h.update (by grind) (by grind) (by grind), rfl, rfl⟩
  · have hbase : base k = none := by rw [← h.rest k hnew hmod hdel, hk]
    rw [if_neg hdel, if_neg (not_or.mpr ⟨hnew, hmod⟩)]
    exact ⟨_, rfl, h.update (by grind) (by grind) (by grind), rfl, rfl⟩

theorem deleteEntry (h : NetEffect base δ now) (hk : (now k).isSome) :
    ∃ δ', δ.deleteEntry k = some δ' ∧ NetEffect base δ' (Function.update now k none) ∧
      δ'.mCurrentHeader = δ.mCurrentHeader ∧ δ'.mPreviousHeaderValue = δ.mPreviousHeaderValue := by
  have hdel : k ∉ δ.mDelete := fun hmem => by
    rw [((h.del k).mp hmem).2] at hk
    cases hk
  unfold LedgerDelta.deleteEntry
  by_cases hnew : k ∈ δ.mNew
  · -- created before: the base does not have it, so nothing is left of it
    have hbase := (h.mem_new_iff.mp hnew).1
    have hmod : k ∉ δ.mMod := fun hmem => (h.disjoint k).1 ⟨hnew, hmem⟩
    rw [if_pos hnew]
    exact ⟨_, rfl, h.update (by grind) (by grind) (by grind), rfl, rfl⟩
  · have hbase : (base k).isSome := by
      by_cases hmod : k ∈ δ.mMod
      · exact (h.of_mem_mod hmod).1
      · rw [← h.rest k hnew hmod hdel]
        exact hk
    rw [if_neg hnew, if_neg hdel]
    exact ⟨_, rfl, h.update (by grind) (by grind) (by grind), rfl, rfl⟩

theorem modEntry (h : NetEffect base δ now) (hk : (now (LedgerEntryKey e)).isSome) :
    ∃ δ', δ.modEntry e = some δ' ∧
      NetEffect base δ' (Function.update now (LedgerEntryKey e) (some e)) ∧
        δ'.mCurrentHeader = δ.mCurrentHeader ∧
          δ'.mPreviousHeaderValue = δ.mPreviousHeaderValue := by
  set k := LedgerEntryKey e with hkdef
  have hdel : k ∉ δ.mDelete := fun hmem => by
    rw [((h.del k).mp hmem).2] at hk
    cases hk
  unfold LedgerDelta.modEntry
  simp only [← hkdef]
  by_cases hnew : k ∈ δ.mNew
  · have hbase := (h.mem_new_iff.mp hnew).1
    have hmod : k ∉ δ.mMod := fun hmem => (h.disjoint k).1 ⟨hnew, hmem⟩
    rw [if_neg hmod, if_pos hnew]
    exact ⟨_, rfl, h.update (by grind) (by grind) (by grind), rfl, rfl⟩
  · have hbase : (base k).isSome := by
      by_cases hmod : k ∈ δ.mMod
      · exact (h.of_mem_mod hmod).1
      · rw [← h.rest k hnew hmod hdel]
        exact hk
    exact ⟨{ δ with mMod := δ.mMod.insert k e }, by simp [hnew, hdel],
      h.update (by grind) (by grind) (by grind), rfl, rfl⟩

/-! ## Merging -/

/-- The header of a delta, and what it was. -/
def SameHeader (δ δ' : LedgerDelta) : Prop :=
  δ'.mCurrentHeader = δ.mCurrentHeader ∧ δ'.mPreviousHeaderValue = δ.mPreviousHeaderValue

theorem SameHeader.trans {δ δ' δ'' : LedgerDelta} (h : SameHeader δ δ') (h' : SameHeader δ' δ'') :
    SameHeader δ δ'' :=
  ⟨h'.1.trans h.1, h'.2.trans h.2⟩

theorem recordPrevious (h : NetEffect base δ now) (other : LedgerDelta) (k : LedgerKey) :
    NetEffect base (δ.recordPrevious other k) now ∧
      SameHeader δ (δ.recordPrevious other k) := by
  unfold LedgerDelta.recordPrevious
  split
  · exact ⟨h.congr rfl rfl rfl, rfl, rfl⟩
  · exact ⟨h, rfl, rfl⟩

theorem mergeDeleted (h : NetEffect base δ now) (other : LedgerDelta) {ks : List LedgerKey}
    (hks : ks.Nodup) (hnow : ∀ k ∈ ks, (now k).isSome) :
    ∃ δ', δ.mergeDeleted other ks = some δ' ∧
      NetEffect base δ' (fun k => if k ∈ ks then none else now k) ∧ SameHeader δ δ' := by
  induction ks generalizing δ now with
  | nil => exact ⟨δ, rfl, by simpa using h, rfl, rfl⟩
  | cons k ks ih =>
    obtain ⟨hk, hks⟩ := List.nodup_cons.mp hks
    obtain ⟨δ₁, h₁, heff₁, hhead₁⟩ := h.deleteEntry (hnow k (by simp))
    obtain ⟨heff₂, hhead₂⟩ := heff₁.recordPrevious other k
    obtain ⟨δ₃, h₃, heff₃, hhead₃⟩ := ih heff₂ hks fun k' hk' => by
      have hne : k' ≠ k := fun heq => hk (heq ▸ hk')
      rw [Function.update_of_ne hne]
      exact hnow k' (List.mem_cons_of_mem _ hk')
    refine ⟨δ₃, ?_, ?_, (SameHeader.trans hhead₁ hhead₂).trans hhead₃⟩
    · rw [← h₃]
      simp [LedgerDelta.mergeDeleted, List.foldlM_cons, h₁]
    · have hfun : (fun k' => if k' ∈ ks then none else Function.update now k none k') =
          fun k' => if k' ∈ k :: ks then none else now k' := by
        funext k'
        by_cases hkk : k' = k <;> simp [hkk]
      rw [← hfun]
      exact heff₃

theorem mergeNew (h : NetEffect base δ now) {es : List LedgerEntry}
    (hes : (es.map LedgerEntryKey).Nodup) (hnow : ∀ e ∈ es, now (LedgerEntryKey e) = none) :
    ∃ δ' now', δ.mergeNew es = some δ' ∧ NetEffect base δ' now' ∧
      (∀ e ∈ es, now' (LedgerEntryKey e) = some e) ∧
        (∀ k ∉ es.map LedgerEntryKey, now' k = now k) ∧ SameHeader δ δ' := by
  induction es generalizing δ now with
  | nil => exact ⟨δ, now, rfl, h, by simp, fun _ _ => rfl, rfl, rfl⟩
  | cons e es ih =>
    rw [List.map_cons, List.nodup_cons] at hes
    obtain ⟨δ₁, h₁, heff₁, hhead₁⟩ := h.addEntry (hnow e (by simp))
    have hne : ∀ e' ∈ es, LedgerEntryKey e' ≠ LedgerEntryKey e := fun e' he' heq =>
      hes.1 (heq ▸ List.mem_map_of_mem he')
    obtain ⟨δ₂, now₂, h₂, heff₂, hin, hout, hhead₂⟩ := ih heff₁ hes.2 fun e' he' => by
      rw [Function.update_of_ne (hne e' he')]
      exact hnow e' (List.mem_cons_of_mem _ he')
    refine ⟨δ₂, now₂, ?_, heff₂, fun e' he' => ?_, fun k hk => ?_, SameHeader.trans hhead₁ hhead₂⟩
    · rw [← h₂]
      simp [LedgerDelta.mergeNew, List.foldlM_cons, h₁]
    · rcases List.mem_cons.mp he' with rfl | he'
      · rw [hout _ hes.1, Function.update_self]
      · exact hin e' he'
    · rw [List.map_cons, List.mem_cons, not_or] at hk
      rw [hout k hk.2, Function.update_of_ne hk.1]

theorem mergeModified (h : NetEffect base δ now) (other : LedgerDelta)
    {ms : List (LedgerKey × LedgerEntry)} (hms : (ms.map (·.1)).Nodup)
    (hkey : ∀ m ∈ ms, LedgerEntryKey m.2 = m.1) (hnow : ∀ m ∈ ms, (now m.1).isSome) :
    ∃ δ' now', δ.mergeModified other ms = some δ' ∧ NetEffect base δ' now' ∧
      (∀ m ∈ ms, now' m.1 = some m.2) ∧ (∀ k ∉ ms.map (·.1), now' k = now k) ∧
        SameHeader δ δ' := by
  induction ms generalizing δ now with
  | nil => exact ⟨δ, now, rfl, h, by simp, fun _ _ => rfl, rfl, rfl⟩
  | cons m ms ih =>
    rw [List.map_cons, List.nodup_cons] at hms
    have hm : LedgerEntryKey m.2 = m.1 := hkey m (by simp)
    obtain ⟨δ₁, h₁, heff₁, hhead₁⟩ := h.modEntry (e := m.2) (by
      rw [hm]
      exact hnow m (by simp))
    rw [hm] at heff₁
    obtain ⟨heff₂, hhead₂⟩ := heff₁.recordPrevious other m.1
    have hne : ∀ m' ∈ ms, m'.1 ≠ m.1 := fun m' hm' heq => hms.1 (heq ▸ List.mem_map_of_mem hm')
    obtain ⟨δ₃, now₃, h₃, heff₃, hin, hout, hhead₃⟩ := ih heff₂ hms.2
      (fun m' hm' => hkey m' (List.mem_cons_of_mem _ hm')) fun m' hm' => by
        rw [Function.update_of_ne (hne m' hm')]
        exact hnow m' (List.mem_cons_of_mem _ hm')
    refine ⟨δ₃, now₃, ?_, heff₃, fun m' hm' => ?_, fun k hk => ?_,
      (SameHeader.trans hhead₁ hhead₂).trans hhead₃⟩
    · rw [← h₃]
      simp [LedgerDelta.mergeModified, List.foldlM_cons, h₁]
    · rcases List.mem_cons.mp hm' with rfl | hm'
      · rw [hout _ hms.1, Function.update_self]
      · exact hin m' hm'
    · rw [List.map_cons, List.mem_cons, not_or] at hk
      rw [hout k hk.2, Function.update_of_ne hk.1]

/-- The entries of a delta are at their own keys. -/
theorem map_key_new (h : NetEffect base δ now) (hkeyed : Keyed now) :
    (δ.mNew.toList.map (·.2)).map LedgerEntryKey = δ.mNew.keys := by
  rw [List.map_map, ← Std.ExtTreeMap.map_fst_toList_eq_keys]
  refine List.map_congr_left fun row hrow => ?_
  have hget := Std.ExtTreeMap.mem_toList_iff_getElem?_eq_some.mp hrow
  exact hkeyed _ _ ((h.new _ _).mp hget).2

/-- **Merging composes the effects**, and no assertion fails. -/
theorem mergeEntries {inner : LedgerDelta} {now' : EntryMap} (h : NetEffect base δ now)
    (h' : NetEffect now inner now') (hkeyed : Keyed now') :
    ∃ δ', δ.mergeEntries inner = some δ' ∧ NetEffect base δ' now' ∧ SameHeader δ δ' := by
  have hmem : ∀ {k : LedgerKey} {e : LedgerEntry} {t : Table LedgerKey LedgerEntry},
      (k, e) ∈ t.toList → k ∈ t := fun hrow =>
    Std.ExtTreeMap.mem_iff_isSome_getElem?.mpr
      (by rw [Std.ExtTreeMap.mem_toList_iff_getElem?_eq_some.mp hrow]; rfl)
  obtain ⟨δ₁, h₁, heff₁, hhead₁⟩ := h.mergeDeleted inner
    inner.mDelete.nodup_keys fun k hk => ((h'.del k).mp (Std.ExtTreeMap.mem_keys.mp hk)).1
  have hnone : ∀ k ∈ inner.mNew.keys, now k = none := fun k hk =>
    (h'.mem_new_iff.mp (Std.ExtTreeMap.mem_keys.mp hk)).1
  obtain ⟨δ₂, now₂, h₂, heff₂, hin₂, hout₂, hhead₂⟩ := heff₁.mergeNew
    (by rw [h'.map_key_new hkeyed]; exact inner.mNew.nodup_keys) fun e he => by
      have hk := List.mem_map_of_mem (f := LedgerEntryKey) he
      rw [h'.map_key_new hkeyed] at hk
      simp [hnone _ hk]
  rw [h'.map_key_new hkeyed] at hout₂
  have hmod : ∀ m ∈ inner.mMod.toList, (now m.1).isSome ∧ now' m.1 = some m.2 := fun m hm =>
    h'.mod _ _ (Std.ExtTreeMap.mem_toList_iff_getElem?_eq_some.mp hm)
  obtain ⟨δ₃, now₃, h₃, heff₃, hin₃, hout₃, hhead₃⟩ := heff₂.mergeModified inner
    (by rw [Std.ExtTreeMap.map_fst_toList_eq_keys]; exact inner.mMod.nodup_keys)
    (fun m hm => hkeyed _ _ (hmod m hm).2) fun m hm => by
      have hk := hmem hm
      rw [hout₂ m.1 fun hn => (h'.disjoint m.1).1 ⟨Std.ExtTreeMap.mem_keys.mp hn, hk⟩, if_neg fun hd =>
        (h'.disjoint m.1).2.2 ⟨hk, Std.ExtTreeMap.mem_keys.mp hd⟩]
      exact (hmod m hm).1
  rw [Std.ExtTreeMap.map_fst_toList_eq_keys] at hout₃
  have hnow : now₃ = now' := by
    funext k
    by_cases hm : k ∈ inner.mMod
    · obtain ⟨e, he⟩ := Option.isSome_iff_exists.mp (Std.ExtTreeMap.mem_iff_isSome_getElem?.mp hm)
      have hrow := Std.ExtTreeMap.mem_toList_iff_getElem?_eq_some.mpr he
      rw [hin₃ (k, e) hrow, (hmod (k, e) hrow).2]
    · rw [hout₃ k (fun hk => hm (Std.ExtTreeMap.mem_keys.mp hk))]
      by_cases hn : k ∈ inner.mNew
      · obtain ⟨e, he⟩ := Option.isSome_iff_exists.mp (Std.ExtTreeMap.mem_iff_isSome_getElem?.mp hn)
        have hrow := Std.ExtTreeMap.mem_toList_iff_getElem?_eq_some.mpr he
        have hnow' := ((h'.new k e).mp he).2
        rw [hnow', ← hkeyed k e hnow']
        exact hin₂ e (List.mem_map_of_mem (f := fun row : LedgerKey × LedgerEntry => row.2) hrow)
      · rw [hout₂ k (fun hk => hn (Std.ExtTreeMap.mem_keys.mp hk))]
        by_cases hd : k ∈ inner.mDelete
        · rw [if_pos (Std.ExtTreeMap.mem_keys.mpr hd), ((h'.del k).mp hd).2]
        · rw [if_neg (fun hk => hd (Std.ExtTreeMap.mem_keys.mp hk)), h'.rest k hn hm hd]
  refine ⟨δ₃, ?_, hnow ▸ heff₃, (hhead₁.trans hhead₂).trans hhead₃⟩
  simp [LedgerDelta.mergeEntries, h₁, h₂, h₃]

/-- What a batch of live and dead entries makes of the entries `base`. -/
def applyBatch (base : EntryMap) (live : List LedgerEntry) (dead : List LedgerKey) : EntryMap :=
  fun k => if k ∈ dead then none else (live.find? fun e => LedgerEntryKey e = k) <|> base k

/-- The live and the dead entries are all of the effect. -/
theorem applyBatch_eq (h : NetEffect base δ now) (hkeyed : Keyed now) :
    applyBatch base δ.getLiveEntries δ.getDeadEntries = now := by
  have hlive : ∀ k e, e ∈ δ.getLiveEntries → LedgerEntryKey e = k → now k = some e := by
    intro k e he hk
    rcases List.mem_append.mp he with he | he <;> obtain ⟨⟨k', e'⟩, hrow, rfl⟩ := List.mem_map.mp he
    · have hnow := ((h.new k' e').mp (Std.ExtTreeMap.mem_toList_iff_getElem?_eq_some.mp hrow)).2
      rw [← hk, hkeyed _ _ hnow, hnow]
    · have hnow := (h.mod k' e' (Std.ExtTreeMap.mem_toList_iff_getElem?_eq_some.mp hrow)).2
      rw [← hk, hkeyed _ _ hnow, hnow]
  funext k
  unfold applyBatch
  have hdead : k ∈ δ.getDeadEntries ↔ k ∈ δ.mDelete := Std.ExtTreeMap.mem_keys
  by_cases hd : k ∈ δ.mDelete
  · rw [if_pos (hdead.mpr hd), ((h.del k).mp hd).2]
  · rw [if_neg (fun hk => hd (hdead.mp hk))]
    cases hfind : δ.getLiveEntries.find? fun e => LedgerEntryKey e = k with
    | some e =>
      have hk := List.find?_some hfind
      exact (hlive k e (List.mem_of_find?_eq_some hfind) (by simpa using hk)).symm
    | none =>
      have hno : ∀ (t : Table LedgerKey LedgerEntry) (e : LedgerEntry),
          t.toList.map (·.2) ⊆ δ.getLiveEntries → t[k]? = some e → now k = some e → False := by
        intro t e ht he hnow
        have hmem := ht (List.mem_map_of_mem (f := fun row : LedgerKey × LedgerEntry => row.2)
          (Std.ExtTreeMap.mem_toList_iff_getElem?_eq_some.mpr he))
        have := List.find?_eq_none.mp hfind e hmem
        simp [hkeyed k e hnow] at this
      have hn : k ∉ δ.mNew := fun hk => by
        obtain ⟨e, he⟩ := Option.isSome_iff_exists.mp (Std.ExtTreeMap.mem_iff_isSome_getElem?.mp hk)
        exact hno δ.mNew e (List.subset_append_left _ _) he ((h.new k e).mp he).2
      have hm : k ∉ δ.mMod := fun hk => by
        obtain ⟨e, he⟩ := Option.isSome_iff_exists.mp (Std.ExtTreeMap.mem_iff_isSome_getElem?.mp hk)
        exact hno δ.mMod e (List.subset_append_right _ _) he (h.mod k e he).2
      exact (h.rest k hn hm hd).symm

end NetEffect

/-! ## Scripts -/

/-- Calls on a delta, and deltas inside of it that are committed or not. -/
inductive Script where
  | done
  | addEntry (entry : LedgerEntry) (rest : Script)
  | modEntry (entry : LedgerEntry) (rest : Script)
  | deleteEntry (k : LedgerKey) (rest : Script)
  | setHeader (header : LedgerHeader) (rest : Script)
  | nest (body : Script) (commits : Bool) (rest : Script)

namespace Script

/-- The entries after the calls that are committed, one after the other. -/
def exec : Script → EntryMap → EntryMap
  | done, m => m
  | addEntry e rest, m => rest.exec (Function.update m (LedgerEntryKey e) (some e))
  | modEntry e rest, m => rest.exec (Function.update m (LedgerEntryKey e) (some e))
  | deleteEntry k rest, m => rest.exec (Function.update m k none)
  | setHeader _ rest, m => rest.exec m
  | nest body commits rest, m => rest.exec (if commits then body.exec m else m)

/-- The header after the calls that are committed. -/
def execHeader : Script → LedgerHeader → LedgerHeader
  | done, header => header
  | addEntry _ rest, header => rest.execHeader header
  | modEntry _ rest, header => rest.execHeader header
  | deleteEntry _ rest, header => rest.execHeader header
  | setHeader header rest, _ => rest.execHeader header
  | nest body commits rest, header =>
    rest.execHeader (if commits then body.execHeader header else header)

/-- What is added does not exist, and what is modified or deleted does. -/
def WellFormed : Script → EntryMap → Prop
  | done, _ => True
  | addEntry e rest, m =>
    m (LedgerEntryKey e) = none ∧ rest.WellFormed (Function.update m (LedgerEntryKey e) (some e))
  | modEntry e rest, m =>
    (m (LedgerEntryKey e)).isSome ∧
      rest.WellFormed (Function.update m (LedgerEntryKey e) (some e))
  | deleteEntry k rest, m => (m k).isSome ∧ rest.WellFormed (Function.update m k none)
  | setHeader _ rest, m => rest.WellFormed m
  | nest body commits rest, m =>
    body.WellFormed m ∧ rest.WellFormed (if commits then body.exec m else m)

instance decidableWellFormed : (script : Script) → (m : EntryMap) → Decidable (script.WellFormed m)
  | done, _ => inferInstanceAs (Decidable True)
  | addEntry _ rest, _ =>
    have := decidableWellFormed rest
    inferInstanceAs (Decidable (_ ∧ _))
  | modEntry _ rest, _ =>
    have := decidableWellFormed rest
    inferInstanceAs (Decidable (_ ∧ _))
  | deleteEntry _ rest, _ =>
    have := decidableWellFormed rest
    inferInstanceAs (Decidable (_ ∧ _))
  | setHeader _ rest, m => decidableWellFormed rest m
  | nest body _ rest, _ =>
    have := decidableWellFormed body
    have := decidableWellFormed rest
    inferInstanceAs (Decidable (_ ∧ _))

end Script

theorem Keyed.update {m : EntryMap} (h : Keyed m) (e : LedgerEntry) :
    Keyed (Function.update m (LedgerEntryKey e) (some e)) := by
  intro k e' he'
  by_cases hk : k = LedgerEntryKey e
  · subst hk
    rw [Function.update_self] at he'
    rw [← Option.some.inj he']
  · rw [Function.update_of_ne hk] at he'
    exact h k e' he'

theorem Keyed.delete {m : EntryMap} (h : Keyed m) (k : LedgerKey) :
    Keyed (Function.update m k none) := by
  intro k' e' he'
  by_cases hk : k' = k
  · subst hk
    rw [Function.update_self] at he'
    cases he'
  · rw [Function.update_of_ne hk] at he'
    exact h k' e' he'

theorem Keyed.exec {m : EntryMap} (h : Keyed m) (script : Script) : Keyed (script.exec m) := by
  induction script generalizing m with
  | done => exact h
  | addEntry e rest ih => exact ih (h.update e)
  | modEntry e rest ih => exact ih (h.update e)
  | deleteEntry k rest ih => exact ih (h.delete k)
  | setHeader header rest ih => exact ih h
  | nest body commits rest ihbody ihrest =>
    cases commits with
    | true => exact ihrest (ihbody h)
    | false => exact ihrest h

/-- The scope of a delta that is not committed. -/
def abandoned (d : ℕ) (x : LedgerM Unit) : LedgerM Unit := do
  openDelta d
  x
  rollback (d + 1)

/-- The calls of a script, in the delta `d`. -/
def runScript (d : ℕ) : Script → LedgerM Unit
  | .done => pure ()
  | .addEntry e rest => do
    updateDelta d (·.addEntry e)
    runScript d rest
  | .modEntry e rest => do
    updateDelta d (·.modEntry e)
    runScript d rest
  | .deleteEntry k rest => do
    updateDelta d (·.deleteEntry k)
    runScript d rest
  | .setHeader header rest => do
    setHeader d header
    runScript d rest
  | .nest body true rest => do
    nested d (runScript (d + 1) body)
    runScript d rest
  | .nest body false rest => do
    abandoned d (runScript (d + 1) body)
    runScript d rest

/-- What the calls of a script leave in the delta `d`: the deltas around it are as they were. -/
structure Ran (d : ℕ) (script : Script) (base now : EntryMap) (s s' : LedgerState) : Prop where
  effect : NetEffect base (s'.deltas d) (script.exec now)
  header : (s'.deltas d).mCurrentHeader = script.execHeader (s.deltas d).mCurrentHeader
  previous : (s'.deltas d).mPreviousHeaderValue = (s.deltas d).mPreviousHeaderValue
  outer : ∀ i < d, s'.deltas i = s.deltas i

section Calls

variable {d : ℕ} {s : LedgerState} {base now now' : EntryMap} {script rest : Script}

/-- One call on the delta, and then the rest of the script. -/
theorem wp_call {f : LedgerDelta → Option LedgerDelta} {δ : LedgerDelta}
    (hδ : f (s.deltas d) = some δ) (hexec : script.exec now = rest.exec now')
    (hheader : rest.execHeader δ.mCurrentHeader =
      script.execHeader (s.deltas d).mCurrentHeader)
    (hprevious : δ.mPreviousHeaderValue = (s.deltas d).mPreviousHeaderValue)
    (hrest : ∀ s₁ : LedgerState, s₁.deltas d = δ → wp (runScript d rest)
      (fun _ s' => Ran d rest base now' s₁ s') (fun _ _ => False) s₁) :
    wp (updateDelta d f >>= fun _ => runScript d rest) (fun _ s' => Ran d script base now s s')
      (fun _ _ => False) s := by
  rw [wp_bind, wp_updateDelta]
  refine ⟨fun δ' hδ' => ?_, fun hnone => by rw [hδ] at hnone; cases hnone⟩
  obtain rfl : δ = δ' := Option.some.inj (hδ.symm.trans hδ')
  refine wp_mono (hrest _ (Function.update_self d δ s.deltas)) (fun _ s' hran => ?_) fun _ _ h => h
  refine ⟨hexec ▸ hran.effect, ?_, ?_, fun i hi => ?_⟩
  · rw [hran.header]
    simpa using hheader
  · rw [hran.previous]
    simpa using hprevious
  · rw [hran.outer i hi]
    exact Function.update_of_ne (Nat.ne_of_lt hi) _ _

/-- A delta that is committed. -/
theorem wp_nested_runScript {body : Script} (h : NetEffect base (s.deltas d) now)
    (hkeyed : Keyed now)
    (hbody : ∀ s₁ : LedgerState, NetEffect now (s₁.deltas (d + 1)) now →
      wp (runScript (d + 1) body) (fun _ s' => Ran (d + 1) body now now s₁ s')
        (fun _ _ => False) s₁) :
    wp (nested d (runScript (d + 1) body))
      (fun _ s' => Ran d (.nest body true .done) base now s s') (fun _ _ => False) s := by
  simp only [nested, openDelta, wp_bind, wp_modify, wp_tryCatch]
  refine wp_mono (hbody _ ?_) (fun _ s₁ hran => ?_) fun _ _ h => h.elim
  · simpa using NetEffect.fresh now _ _
  · have houter : s₁.deltas d = s.deltas d := by
      rw [hran.outer d (Nat.lt_succ_self d)]
      exact Function.update_of_ne (Nat.ne_of_lt (Nat.lt_succ_self d)) _ _
    have hprevious : (s₁.deltas (d + 1)).mPreviousHeaderValue = (s.deltas d).mCurrentHeader := by
      rw [hran.previous]
      simp [LedgerDelta.ofHeader]
    have hheader : (s₁.deltas (d + 1)).mCurrentHeader =
        body.execHeader (s.deltas d).mCurrentHeader := by
      rw [hran.header]
      simp [LedgerDelta.ofHeader]
    obtain ⟨δ, hδ, heff, -, hprev⟩ :=
      (houter.symm ▸ h).mergeEntries hran.effect (hkeyed.exec body)
    simp only [commit, wp_bind, wp_get]
    rw [wp_ite]
    refine ⟨fun hne => absurd (by rw [hprevious, houter]) hne, fun _ => ?_⟩
    rw [wp_updateDelta]
    refine ⟨fun δ' hδ' => ?_, fun hnone => by rw [hδ] at hnone; cases hnone⟩
    rw [hδ] at hδ'
    obtain rfl := Option.some.inj hδ'
    refine ⟨?_, ?_, ?_, fun i hi => ?_⟩
    · simp only [Function.update_self]
      exact heff.congr rfl rfl rfl
    · simp only [Function.update_self]
      exact hheader
    · simpa [houter] using hprev
    · refine (Function.update_of_ne (Nat.ne_of_lt hi) _ _).trans ?_
      refine (hran.outer i (Nat.lt_succ_of_lt hi)).trans ?_
      exact Function.update_of_ne (by omega) _ _

/-- **A delta that is rolled back leaves the deltas around it, and their headers, unchanged.** -/
theorem wp_abandoned_runScript {body : Script}
    (hbody : ∀ s₁ : LedgerState, NetEffect now (s₁.deltas (d + 1)) now →
      wp (runScript (d + 1) body) (fun _ s' => Ran (d + 1) body now now s₁ s')
        (fun _ _ => False) s₁) :
    wp (abandoned d (runScript (d + 1) body)) (fun _ s' => ∀ i ≤ d, s'.deltas i = s.deltas i)
      (fun _ _ => False) s := by
  simp only [abandoned, openDelta, wp_bind, wp_modify]
  refine wp_mono (hbody _ ?_) (fun _ s₁ hran => ?_) fun _ _ h => h
  · simpa using NetEffect.fresh now _ _
  · intro i hi
    refine (hran.outer i (Nat.lt_succ_of_le hi)).trans ?_
    exact Function.update_of_ne (by omega) _ _

end Calls

/-- **Every well-formed script runs through**, and its delta has the net effect of the calls that
are committed. -/
theorem wp_runScript (script : Script) {d : ℕ} {s : LedgerState} {base now : EntryMap}
    (h : NetEffect base (s.deltas d) now) (hkeyed : Keyed now) (hwf : script.WellFormed now) :
    wp (runScript d script) (fun _ s' => Ran d script base now s s') (fun _ _ => False) s := by
  induction script generalizing d s base now with
  | done => exact ⟨h, rfl, rfl, fun _ _ => rfl⟩
  | addEntry e rest ih =>
    obtain ⟨δ, hδ, heff, hhead, hprev⟩ := h.addEntry hwf.1
    exact wp_call hδ rfl (by rw [hhead]; rfl) hprev fun s₁ hs₁ =>
      ih (hs₁ ▸ heff) (hkeyed.update e) hwf.2
  | modEntry e rest ih =>
    obtain ⟨δ, hδ, heff, hhead, hprev⟩ := h.modEntry hwf.1
    exact wp_call hδ rfl (by rw [hhead]; rfl) hprev fun s₁ hs₁ =>
      ih (hs₁ ▸ heff) (hkeyed.update e) hwf.2
  | deleteEntry k rest ih =>
    obtain ⟨δ, hδ, heff, hhead, hprev⟩ := h.deleteEntry hwf.1
    exact wp_call hδ rfl (by rw [hhead]; rfl) hprev fun s₁ hs₁ =>
      ih (hs₁ ▸ heff) (hkeyed.delete k) hwf.2
  | setHeader header rest ih =>
    exact wp_call (f := fun δ => some { δ with mCurrentHeader := header }) rfl rfl rfl rfl
      fun s₁ hs₁ => ih (hs₁ ▸ h.congr rfl rfl rfl) hkeyed hwf
  | nest body commits rest ihbody ihrest =>
    cases commits with
    | true =>
      refine (wp_bind _ _).mpr (wp_mono (wp_nested_runScript h hkeyed fun s₁ h₁ =>
        ihbody h₁ hkeyed hwf.1) (fun _ s₁ hran => ?_) fun _ _ h => h)
      refine wp_mono (ihrest hran.effect (hkeyed.exec body) hwf.2) (fun _ s' hran' => ?_)
        fun _ _ h => h
      exact ⟨hran'.effect, by rw [hran'.header, hran.header]; rfl,
        hran'.previous.trans hran.previous,
        fun i hi => (hran'.outer i hi).trans (hran.outer i hi)⟩
    | false =>
      refine (wp_bind _ _).mpr (wp_mono (wp_abandoned_runScript fun s₁ h₁ =>
        ihbody h₁ hkeyed hwf.1) (fun _ s₁ hsame => ?_) fun _ _ h => h)
      have hd := hsame d (Nat.le_refl d)
      refine wp_mono (ihrest (hd.symm ▸ h) hkeyed hwf.2) (fun _ s' hran' => ?_) fun _ _ h => h
      exact ⟨hran'.effect, by rw [hran'.header, hd]; rfl, by rw [hran'.previous, hd],
        fun i hi => (hran'.outer i hi).trans (hsame i (Nat.le_of_lt hi))⟩

/-- **Deltas compose.** Whatever is called on a delta over the entries `base`, in deltas nested in
any way and committed or rolled back: nothing fails, the three key sets are disjoint, the live and
dead entries make of `base` exactly what the committed calls make of it, and a delta that is rolled
back leaves the one around it as it was. -/
theorem runScript_netEffect (script : Script) (base : EntryMap) (header : LedgerHeader)
    (s : LedgerState) (hbase : Keyed base) (hwf : script.WellFormed base)
    (hs : s.deltas 0 = .ofHeader header) :
    (∃ s', runScript 0 script s = .ok () s' ∧ NetEffect base (s'.deltas 0) (script.exec base) ∧
      (∀ k, ¬ (k ∈ (s'.deltas 0).mNew ∧ k ∈ (s'.deltas 0).mMod) ∧
        ¬ (k ∈ (s'.deltas 0).mNew ∧ k ∈ (s'.deltas 0).mDelete) ∧
          ¬ (k ∈ (s'.deltas 0).mMod ∧ k ∈ (s'.deltas 0).mDelete)) ∧
      NetEffect.applyBatch base (s'.deltas 0).getLiveEntries (s'.deltas 0).getDeadEntries =
        script.exec base ∧
      (s'.deltas 0).mCurrentHeader = script.execHeader header) ∧
    ∀ (body : Script) (d : ℕ) (now : EntryMap) (t : LedgerState), Keyed now →
      body.WellFormed now → ∃ t', runScript d (.nest body false .done) t = .ok () t' ∧
        ∀ i ≤ d, t'.deltas i = t.deltas i := by
  constructor
  · have hrun := wp_runScript script (s := s) (d := 0) (hs ▸ NetEffect.fresh base header true) hbase hwf
    unfold wp at hrun
    cases hx : runScript 0 script s with
    | ok u s' =>
      rw [hx] at hrun
      refine ⟨s', rfl, hrun.effect, hrun.effect.disjoint,
        hrun.effect.applyBatch_eq (hbase.exec script), ?_⟩
      rw [hrun.header, hs]
      rfl
    | error e s' =>
      rw [hx] at hrun
      exact hrun.elim
  · intro body d now t hnow hbody
    have hrun := wp_abandoned_runScript (d := d) (s := t) fun s₁ h₁ =>
      wp_runScript body h₁ hnow hbody
    unfold wp at hrun
    cases hx : abandoned d (runScript (d + 1) body) t with
    | ok u t' =>
      rw [hx] at hrun
      refine ⟨t', ?_, hrun⟩
      show EStateM.bind (abandoned d (runScript (d + 1) body)) (fun _ => pure ()) t = _
      unfold EStateM.bind
      rw [hx]
      rfl
    | error e t' =>
      rw [hx] at hrun
      exact hrun.elim

/-- An entry that is deleted and created again in a delta that is committed, next to a delta that
creates one and is rolled back. -/
def deleteAndRecreate : Script :=
  let e : LedgerEntry := ⟨2, .reversedPayment ⟨7⟩⟩
  let e' : LedgerEntry := ⟨2, .reversedPayment ⟨8⟩⟩
  .nest (.deleteEntry (.reversedPayment 7) (.addEntry e .done)) true
    (.nest (.addEntry e' (.setHeader {} .done)) false .done)

/-- The entry that is there before. -/
def oneReversedPayment : EntryMap := fun k =>
  if k = .reversedPayment 7 then some ⟨1, .reversedPayment ⟨7⟩⟩ else none

theorem runScript_deleteAndRecreate :
    ∃ s', runScript 0 deleteAndRecreate {} = .ok () s' ∧
      NetEffect.applyBatch oneReversedPayment (s'.deltas 0).getLiveEntries
        (s'.deltas 0).getDeadEntries = deleteAndRecreate.exec oneReversedPayment := by
  have hkeyed : Keyed oneReversedPayment := by
    intro k e he
    unfold oneReversedPayment at he
    split at he
    · rename_i hk
      rw [hk, ← Option.some.inj he]
      rfl
    · cases he
  obtain ⟨⟨s', hs', -, -, hbatch, -⟩, -⟩ := runScript_netEffect deleteAndRecreate oneReversedPayment
    {} {} hkeyed (by decide) rfl
  exact ⟨s', hs', hbatch⟩

end SmartCore.Ledger
