import Mathlib.Order.Basic
import Mathlib.Data.List.Basic
import Mathlib.Data.List.Sort
import Mathlib.Tactic.Common
import SmartCore.Ledger.Entries

/-!
# Buckets

A bucket is a file of entries in the order of their keys, with at most one entry for a key. An
entry is a live ledger entry, or the key of a dead one. `Bucket.merge` merges an old and a new
bucket in a single pass; entries of the new bucket win. It leaves out the entries whose keys are in
one of the shadows, and the dead entries if they are not to be kept.

The buckets are generic in the ledger entries `E` and their keys `K`. They are ordered by
`BucketEntryIdCmp`, which is the order of the keys (`cmp_ledger`). An assertion that fails is
modelled by `none`.

Main results: `merge_spec` (the order asserted in `OutputIterator::put` is never violated) and
`find_merge`, which says what is found in the result.
-/

namespace SmartCore.Buckets

/-- Ledger entries have keys. -/
class Keyed (E : Type) (K : outParam Type) where
  key : E → K

instance : Keyed Ledger.LedgerEntry Ledger.LedgerKey := ⟨Ledger.LedgerEntryKey⟩

variable {K E : Type} [Keyed E K]

/-! ## Entries -/

inductive BucketEntry (E K : Type) where
  | LIVEENTRY (liveEntry : E)
  | DEADENTRY (deadEntry : K)
deriving DecidableEq

namespace BucketEntry

def key : BucketEntry E K → K
  | LIVEENTRY e => Keyed.key e
  | DEADENTRY k => k

@[simp] theorem key_live (e : E) : (LIVEENTRY e : BucketEntry E K).key = Keyed.key e := rfl

@[simp] theorem key_dead (k : K) : (DEADENTRY k : BucketEntry E K).key = k := rfl

def isDead : BucketEntry E K → Bool
  | LIVEENTRY _ => false
  | DEADENTRY _ => true

/-- The live ledger entry, if it is one. -/
def live? : BucketEntry E K → Option E
  | LIVEENTRY e => some e
  | DEADENTRY _ => none

end BucketEntry

variable [LinearOrder K]

/-- `BucketEntryIdCmp`: compares identity, not content. -/
def cmp (a b : BucketEntry E K) : Bool := decide (a.key < b.key)

/-- On ledger entries it is `LedgerEntryIdCmp`. -/
theorem cmp_ledger (a b : BucketEntry Ledger.LedgerEntry Ledger.LedgerKey) :
    cmp a b = Ledger.ledgerEntryIdCmp a.key b.key := by
  rw [Bool.eq_iff_iff, Ledger.ledgerEntryIdCmp_iff, cmp, decide_eq_true_eq]

/-- In the order of the keys, without two entries for a key. -/
def Ascending (l : List (BucketEntry E K)) : Prop := l.Pairwise fun a b => a.key < b.key

theorem ascending_nil : Ascending ([] : List (BucketEntry E K)) := List.Pairwise.nil

/-- A bucket. -/
@[ext]
structure Bucket (E K : Type) [LinearOrder K] [Keyed E K] where
  entries : List (BucketEntry E K) := []
  ascending : Ascending entries := by exact ascending_nil

instance [DecidableEq E] : DecidableEq (Bucket E K) := fun a b =>
  decidable_of_iff (a.entries = b.entries) (Bucket.ext_iff (x := a) (y := b)).symm

/-! ## Writing -/

/-- `OutputIterator`: what has been written, and the entry that is held back in case the next one
has the same key. -/
structure OutputIterator (E K : Type) [LinearOrder K] [Keyed E K] where
  mKeepDeadEntries : Bool
  written : List (BucketEntry E K) := []
  mBuf : Option (BucketEntry E K) := none
  written_nil : mBuf = none → written = [] := by exact fun _ => rfl
  ascending : Ascending (written ++ mBuf.toList) := by exact ascending_nil

namespace OutputIterator

variable (out : OutputIterator E K)

def put (e : BucketEntry E K) : Option (OutputIterator E K) :=
  if !out.mKeepDeadEntries && e.isDead then some out
  else
    match hbuf : out.mBuf with
    | none =>
      some
        { mKeepDeadEntries := out.mKeepDeadEntries
          written := out.written
          mBuf := some e
          written_nil := by simp
          ascending := by simp [out.written_nil hbuf, Ascending] }
    | some buf =>
      -- entries must not come out of order
      if _hle : cmp e buf then none
      -- a greater identity flushes the buffered entry, the same identity replaces it
      else if hlt : cmp buf e then
        some
          { mKeepDeadEntries := out.mKeepDeadEntries
            written := out.written ++ [buf]
            mBuf := some e
            written_nil := by simp
            ascending := by
              have hasc := out.ascending
              rw [hbuf] at hasc
              simp only [cmp, decide_eq_true_eq] at hlt
              simp only [Ascending, Option.toList_some, List.pairwise_append, List.mem_append,
                List.mem_singleton, List.pairwise_singleton] at hasc ⊢
              grind }
      else
        some
          { mKeepDeadEntries := out.mKeepDeadEntries
            written := out.written
            mBuf := some e
            written_nil := by simp
            ascending := by
              have hasc := out.ascending
              rw [hbuf] at hasc
              simp only [cmp, decide_eq_true_eq] at _hle hlt
              simp only [Ascending, Option.toList_some, List.pairwise_append, List.mem_singleton,
                List.pairwise_singleton] at hasc ⊢
              grind }

/-- What has been put so far. -/
def entries : List (BucketEntry E K) := out.written ++ out.mBuf.toList

def getBucket : Bucket E K := ⟨out.entries, out.ascending⟩

end OutputIterator

/-! ## Merging -/

/-- Advance the shadow iterators to the key of `e`, up to the first one that has it. -/
def advanceShadows (e : BucketEntry E K) :
    List (List (BucketEntry E K)) → List (List (BucketEntry E K)) × Bool
  | [] => ([], false)
  | si :: rest =>
    let si' := si.dropWhile fun s => cmp s e
    if si'.head?.any fun s => !cmp e s then (si' :: rest, true)
    else
      let r := advanceShadows e rest
      (si' :: r.1, r.2)

/-- The output and the shadow iterators. -/
structure MergeState (E K : Type) [LinearOrder K] [Keyed E K] where
  out : OutputIterator E K
  shadowIterators : List (List (BucketEntry E K))

/-- Put the entry unless it is shadowed. -/
def maybe_put (st : MergeState E K) (e : BucketEntry E K) : Option (MergeState E K) :=
  let r := advanceShadows e st.shadowIterators
  (if r.2 then some st.out else st.out.put e).map fun out => ⟨out, r.1⟩

/-- The loop of `Bucket::merge`, over what is left of the old and of the new bucket. -/
def mergeLoop (oi ni : List (BucketEntry E K)) (st : MergeState E K) : Option (MergeState E K) :=
  match oi, ni with
  | [], [] => some st
  -- out of new entries, take old entries
  | o :: oi, [] => do mergeLoop oi [] (← maybe_put st o)
  -- out of old entries, take new entries
  | [], n :: ni => do mergeLoop [] ni (← maybe_put st n)
  | o :: oi, n :: ni =>
    if cmp o n then do mergeLoop oi (n :: ni) (← maybe_put st o)
    else if cmp n o then do mergeLoop (o :: oi) ni (← maybe_put st n)
    -- old and new are for the same key, take new
    else do mergeLoop oi ni (← maybe_put st n)
termination_by oi.length + ni.length

def Bucket.merge (oldBucket newBucket : Bucket E K) (shadows : List (Bucket E K))
    (keepDeadEntries : Bool) : Option (Bucket E K) := do
  let st ← mergeLoop oldBucket.entries newBucket.entries
    ⟨{ mKeepDeadEntries := keepDeadEntries }, shadows.map Bucket.entries⟩
  pure st.out.getBucket

/-- Write entries in their order to a bucket. `std::sort` leaves the order of entries with the same
key open; there are none such in a batch. -/
def writeSorted (l : List (BucketEntry E K)) : Option (Bucket E K) := do
  let out ← (l.mergeSort fun a b => !cmp b a).foldlM OutputIterator.put
    ({ mKeepDeadEntries := true } : OutputIterator E K)
  pure out.getBucket

/-- The bucket of a batch. -/
def Bucket.fresh (liveEntries : List E) (deadEntries : List K) : Option (Bucket E K) := do
  let liveBucket ← writeSorted (liveEntries.map .LIVEENTRY)
  let deadBucket ← writeSorted (deadEntries.map .DEADENTRY)
  Bucket.merge liveBucket deadBucket [] true

/-! ## What a merge does -/

/-- The entries a merge looks at, in order: those of both buckets, with the new one where both have
a key. -/
def candidates (oi ni : List (BucketEntry E K)) : List (BucketEntry E K) :=
  match oi, ni with
  | [], [] => []
  | o :: oi, [] => o :: candidates oi []
  | [], n :: ni => n :: candidates [] ni
  | o :: oi, n :: ni =>
    if cmp o n then o :: candidates oi (n :: ni)
    else if cmp n o then n :: candidates (o :: oi) ni
    else n :: candidates oi ni
termination_by oi.length + ni.length

theorem mergeLoop_eq (oi ni : List (BucketEntry E K)) (st : MergeState E K) :
    mergeLoop oi ni st = (candidates oi ni).foldlM maybe_put st := by
  fun_induction candidates oi ni generalizing st with
  | case1 => simp [mergeLoop]
  | case2 o oi ih => simp [mergeLoop, ih]
  | case3 n ni ih => simp [mergeLoop, ih]
  | case4 o oi n ni h ih => simp [mergeLoop, h, ih]
  | case5 o oi n ni h h' ih => simp [mergeLoop, h, h', ih]
  | case6 o oi n ni h h' ih => simp [mergeLoop, h, h', ih]

theorem Ascending.tail {e : BucketEntry E K} {l : List (BucketEntry E K)}
    (h : Ascending (e :: l)) : Ascending l := (List.pairwise_cons.mp h).2

theorem Ascending.lt {e e' : BucketEntry E K} {l : List (BucketEntry E K)}
    (h : Ascending (e :: l)) (hmem : e' ∈ l) : e.key < e'.key := (List.pairwise_cons.mp h).1 e' hmem

theorem Ascending.key_inj {l : List (BucketEntry E K)} (h : Ascending l) {e e' : BucketEntry E K}
    (he : e ∈ l) (he' : e' ∈ l) (hkey : e.key = e'.key) : e = e' := by
  induction l with
  | nil => cases he
  | cons a l ih =>
    rcases List.mem_cons.mp he with rfl | hmem
    · rcases List.mem_cons.mp he' with rfl | hmem'
      · rfl
      · exact absurd hkey (h.lt hmem').ne
    · rcases List.mem_cons.mp he' with rfl | hmem'
      · exact absurd hkey (h.lt hmem).ne'
      · exact ih h.tail hmem hmem'

/-- The candidates are the new entries, and the old ones with other keys. -/
theorem mem_candidates {oi ni : List (BucketEntry E K)} (ho : Ascending oi) (hn : Ascending ni)
    {e : BucketEntry E K} :
    e ∈ candidates oi ni ↔ e ∈ ni ∨ (e ∈ oi ∧ ∀ e' ∈ ni, e'.key ≠ e.key) := by
  fun_induction candidates oi ni with
  | case1 => simp
  | case2 o oi ih => simp [ih ho.tail hn]
  | case3 n ni ih => simp [ih ho hn.tail]
  | case4 o oi n ni h ih =>
    simp only [cmp, decide_eq_true_eq] at h
    have hlt : ∀ e' ∈ n :: ni, o.key < e'.key := by
      intro e' he'
      rcases List.mem_cons.mp he' with rfl | he'
      · exact h
      · exact h.trans (hn.lt he')
    rw [List.mem_cons, ih ho.tail hn, List.mem_cons (a := e) (l := oi)]
    constructor
    · rintro (rfl | hmem | ⟨hmem, hne⟩)
      · exact Or.inr ⟨Or.inl rfl, fun e' he' => (hlt e' he').ne'⟩
      · exact Or.inl hmem
      · exact Or.inr ⟨Or.inr hmem, hne⟩
    · rintro (hmem | ⟨rfl | hmem, hne⟩)
      · exact Or.inr (Or.inl hmem)
      · exact Or.inl rfl
      · exact Or.inr (Or.inr ⟨hmem, hne⟩)
  | case5 o oi n ni h h' ih =>
    simp only [cmp, decide_eq_true_eq] at h'
    have hlt : ∀ e' ∈ o :: oi, n.key < e'.key := by
      intro e' he'
      rcases List.mem_cons.mp he' with rfl | he'
      · exact h'
      · exact h'.trans (ho.lt he')
    rw [List.mem_cons, ih ho hn.tail, List.mem_cons (a := e) (l := ni), List.forall_mem_cons]
    constructor
    · rintro (rfl | hmem | ⟨hmem, hne⟩)
      · exact Or.inl (Or.inl rfl)
      · exact Or.inl (Or.inr hmem)
      · exact Or.inr ⟨hmem, (hlt e hmem).ne, hne⟩
    · rintro ((rfl | hmem) | ⟨hmem, -, hne⟩)
      · exact Or.inl rfl
      · exact Or.inr (Or.inl hmem)
      · exact Or.inr (Or.inr ⟨hmem, hne⟩)
  | case6 o oi n ni h h' ih =>
    simp only [cmp, decide_eq_true_eq] at h h'
    have heq : n.key = o.key := le_antisymm (not_lt.mp h) (not_lt.mp h')
    rw [List.mem_cons, ih ho.tail hn.tail, List.mem_cons (a := e) (l := ni),
      List.mem_cons (a := e) (l := oi), List.forall_mem_cons]
    constructor
    · rintro (rfl | hmem | ⟨hmem, hne⟩)
      · exact Or.inl (Or.inl rfl)
      · exact Or.inl (Or.inr hmem)
      · exact Or.inr ⟨Or.inr hmem, heq ▸ (ho.lt hmem).ne, hne⟩
    · rintro ((rfl | hmem) | ⟨rfl | hmem, hne', hne⟩)
      · exact Or.inl rfl
      · exact Or.inr (Or.inl hmem)
      · exact absurd heq hne'
      · exact Or.inr (Or.inr ⟨hmem, hne⟩)

theorem ascending_candidates {oi ni : List (BucketEntry E K)} (ho : Ascending oi)
    (hn : Ascending ni) : Ascending (candidates oi ni) := by
  fun_induction candidates oi ni with
  | case1 => exact List.Pairwise.nil
  | case2 o oi ih =>
    refine List.pairwise_cons.mpr ⟨fun e he => ?_, ih ho.tail hn⟩
    exact ho.lt (by simpa using (mem_candidates ho.tail hn).mp he)
  | case3 n ni ih =>
    refine List.pairwise_cons.mpr ⟨fun e he => ?_, ih ho hn.tail⟩
    exact hn.lt (by simpa using (mem_candidates ho hn.tail).mp he)
  | case4 o oi n ni h ih =>
    simp only [cmp, decide_eq_true_eq] at h
    refine List.pairwise_cons.mpr ⟨fun e he => ?_, ih ho.tail hn⟩
    rcases (mem_candidates ho.tail hn).mp he with hmem | ⟨hmem, -⟩
    · rcases List.mem_cons.mp hmem with rfl | hmem
      · exact h
      · exact h.trans (hn.lt hmem)
    · exact ho.lt hmem
  | case5 o oi n ni h h' ih =>
    simp only [cmp, decide_eq_true_eq] at h'
    refine List.pairwise_cons.mpr ⟨fun e he => ?_, ih ho hn.tail⟩
    rcases (mem_candidates ho hn.tail).mp he with hmem | ⟨hmem, -⟩
    · exact hn.lt hmem
    · rcases List.mem_cons.mp hmem with rfl | hmem
      · exact h'
      · exact h'.trans (ho.lt hmem)
  | case6 o oi n ni h h' ih =>
    simp only [cmp, decide_eq_true_eq] at h h'
    have heq : n.key = o.key := le_antisymm (not_lt.mp h) (not_lt.mp h')
    refine List.pairwise_cons.mpr ⟨fun e he => ?_, ih ho.tail hn.tail⟩
    rcases (mem_candidates ho.tail hn.tail).mp he with hmem | ⟨hmem, -⟩
    · exact hn.lt hmem
    · exact heq ▸ ho.lt hmem

/-! ### Shadows -/

/-- Some entry of the list has the key. -/
def HasKey (l : List (BucketEntry E K)) (k : K) : Prop := ∃ s ∈ l, s.key = k

instance (l : List (BucketEntry E K)) (k : K) : Decidable (HasKey l k) :=
  inferInstanceAs (Decidable (∃ s ∈ l, s.key = k))

/-- The iterator still shows which keys from `k` on are in the list. -/
structure Tracks (k : K) (it l : List (BucketEntry E K)) : Prop where
  ascending : Ascending it
  hasKey : ∀ k', k ≤ k' → (HasKey it k' ↔ HasKey l k')

theorem mem_dropWhile {l : List (BucketEntry E K)} (h : Ascending l) {e s : BucketEntry E K} :
    s ∈ l.dropWhile (fun s => cmp s e) ↔ s ∈ l ∧ e.key ≤ s.key := by
  induction l with
  | nil => simp
  | cons a l ih =>
    by_cases ha : a.key < e.key
    · rw [List.dropWhile_cons_of_pos (by simpa [cmp] using ha), ih h.tail, List.mem_cons]
      constructor
      · rintro ⟨hmem, hle⟩
        exact ⟨Or.inr hmem, hle⟩
      · rintro ⟨rfl | hmem, hle⟩
        · exact absurd ha hle.not_gt
        · exact ⟨hmem, hle⟩
    · rw [List.dropWhile_cons_of_neg (by simpa [cmp] using ha), List.mem_cons]
      constructor
      · rintro (rfl | hmem)
        · exact ⟨Or.inl rfl, not_lt.mp ha⟩
        · exact ⟨Or.inr hmem, (not_lt.mp ha).trans (h.lt hmem).le⟩
      · rintro ⟨hmem, -⟩
        exact hmem

theorem Tracks.dropWhile {e : BucketEntry E K} {k : K} {it l : List (BucketEntry E K)}
    (h : Tracks k it l) (hk : k ≤ e.key) : Tracks e.key (it.dropWhile fun s => cmp s e) l where
  ascending := List.Pairwise.sublist (List.dropWhile_sublist _) h.ascending
  hasKey k' hk' := by
    rw [← h.hasKey k' (hk.trans hk')]
    constructor
    · rintro ⟨s, hs, rfl⟩
      exact ⟨s, ((mem_dropWhile h.ascending).mp hs).1, rfl⟩
    · rintro ⟨s, hs, rfl⟩
      exact ⟨s, (mem_dropWhile h.ascending).mpr ⟨hs, hk'⟩, rfl⟩

/-- The head of an advanced iterator tells whether the key is there. -/
theorem head_hasKey {e : BucketEntry E K} {it : List (BucketEntry E K)} (h : Ascending it)
    (hle : ∀ s ∈ it, e.key ≤ s.key) :
    (it.head?.any fun s => !cmp e s) = true ↔ HasKey it e.key := by
  cases it with
  | nil => simp [HasKey]
  | cons a it =>
    simp only [List.head?_cons, Option.any_some, cmp, Bool.not_eq_true', decide_eq_false_iff_not,
      not_lt]
    constructor
    · intro ha
      exact ⟨a, by simp, le_antisymm ha (hle a (by simp))⟩
    · rintro ⟨s, hs, hkey⟩
      rcases List.mem_cons.mp hs with rfl | hs
      · exact hkey.le
      · exact hkey ▸ (h.lt hs).le

/-- The iterators find out whether a shadow has the key, if they are asked in ascending order. -/
theorem advanceShadows_spec {e : BucketEntry E K} {k : K} (hk : k ≤ e.key)
    {its ls : List (List (BucketEntry E K))} (h : List.Forall₂ (Tracks k) its ls) :
    ((advanceShadows e its).2 = true ↔ ∃ l ∈ ls, HasKey l e.key) ∧
      List.Forall₂ (Tracks e.key) (advanceShadows e its).1 ls := by
  induction h with
  | nil => simp [advanceShadows]
  | cons htrack hrest ih =>
    rename_i it l its ls
    have hdrop := htrack.dropWhile hk
    have hhead := head_hasKey hdrop.ascending fun s hs =>
      ((mem_dropWhile htrack.ascending).mp hs).2
    rw [hdrop.hasKey e.key le_rfl] at hhead
    have hweaken : List.Forall₂ (Tracks e.key) its ls :=
      hrest.imp fun _ _ h => ⟨h.ascending, fun k' hk' => h.hasKey k' (hk.trans hk')⟩
    unfold advanceShadows
    simp only
    split_ifs with hif
    · exact ⟨by simpa using Or.inl (hhead.mp hif), .cons hdrop hweaken⟩
    · refine ⟨?_, .cons hdrop ih.2⟩
      rw [ih.1, List.exists_mem_cons_iff]
      exact ⟨Or.inr, fun h => h.resolve_left fun hl => hif (hhead.mpr hl)⟩

/-! ### The output -/

/-- Which candidates a merge writes. -/
def Written (shadows : List (Bucket E K)) (keepDeadEntries : Bool) (e : BucketEntry E K) : Prop :=
  (keepDeadEntries = true ∨ e.isDead = false) ∧ ∀ b ∈ shadows, ¬ HasKey b.entries e.key

instance (shadows : List (Bucket E K)) (keepDeadEntries : Bool) (e : BucketEntry E K) :
    Decidable (Written shadows keepDeadEntries e) :=
  inferInstanceAs (Decidable (_ ∧ _))

/-- An entry with a greater key than all before is appended. -/
theorem put_spec {out : OutputIterator E K} {e : BucketEntry E K}
    (h : ∀ s ∈ out.entries, s.key < e.key) :
    ∃ out', out.put e = some out' ∧ out'.mKeepDeadEntries = out.mKeepDeadEntries ∧
      out'.entries = out.entries ++
        if out.mKeepDeadEntries = true ∨ e.isDead = false then [e] else [] := by
  unfold OutputIterator.put
  split_ifs with hdead hkeep hkeep
  · simp_all
  · exact ⟨out, rfl, rfl, by simp⟩
  · split
    · rename_i hbuf
      exact ⟨_, rfl, rfl, by simp [OutputIterator.entries, hbuf]⟩
    · rename_i buf hbuf
      have hlt : buf.key < e.key := h buf (by simp [OutputIterator.entries, hbuf])
      rw [dif_neg (by simp [cmp, hlt.le]), dif_pos (by simp [cmp, hlt])]
      exact ⟨_, rfl, rfl, by simp [OutputIterator.entries, hbuf]⟩
  · simp_all

/-- A run of `maybe_put` over ascending candidates. -/
theorem foldlM_maybe_put (shadows : List (Bucket E K)) {l : List (BucketEntry E K)}
    (hl : Ascending l) (st : MergeState E K)
    (hout : ∀ s ∈ st.out.entries, ∀ e ∈ l, s.key < e.key)
    (htrack : ∀ e ∈ l.head?, List.Forall₂ (Tracks e.key) st.shadowIterators
      (shadows.map Bucket.entries)) :
    ∃ st', l.foldlM maybe_put st = some st' ∧ st'.out.entries = st.out.entries ++
      l.filter fun e => decide (Written shadows st.out.mKeepDeadEntries e) := by
  induction l generalizing st with
  | nil => exact ⟨st, rfl, by simp⟩
  | cons e l ih =>
    obtain ⟨hshadow, htrack'⟩ := advanceShadows_spec le_rfl (htrack e rfl)
    have hany : (advanceShadows e st.shadowIterators).2 = true ↔
        ∃ b ∈ shadows, HasKey b.entries e.key := by simpa using hshadow
    obtain ⟨out', hput, hkeep, hentries⟩ := put_spec (e := e)
      fun s hs => hout s hs e (by simp)
    -- what is written for `e`, and the state afterwards
    obtain ⟨out₁, hout₁, hkeep₁, hent₁⟩ : ∃ out₁,
        (if (advanceShadows e st.shadowIterators).2 then some st.out else st.out.put e) =
          some out₁ ∧ out₁.mKeepDeadEntries = st.out.mKeepDeadEntries ∧
        out₁.entries = st.out.entries ++
          [e].filter fun e => decide (Written shadows st.out.mKeepDeadEntries e) := by
      by_cases hs : (advanceShadows e st.shadowIterators).2 = true
      · obtain ⟨b, hb, hkey⟩ := hany.mp hs
        have hnot : ¬ Written shadows st.out.mKeepDeadEntries e := fun hw => hw.2 b hb hkey
        exact ⟨st.out, by simp [hs], rfl, by simp [hnot]⟩
      · have hall : ∀ b ∈ shadows, ¬ HasKey b.entries e.key := fun b hb hkey =>
          hs (hany.mpr ⟨b, hb, hkey⟩)
        refine ⟨out', by simp [hs, hput], hkeep, ?_⟩
        rw [hentries]
        by_cases hk : st.out.mKeepDeadEntries = true ∨ e.isDead = false
        · have hw : Written shadows st.out.mKeepDeadEntries e := ⟨hk, hall⟩
          simp [hk, hw]
        · have hw : ¬ Written shadows st.out.mKeepDeadEntries e := fun hw => hk hw.1
          simp [hk, hw]
    have hstep : maybe_put st e = some ⟨out₁, (advanceShadows e st.shadowIterators).1⟩ := by
      simp [maybe_put, hout₁]
    have hlt : ∀ s ∈ out₁.entries, ∀ e' ∈ l, s.key < e'.key := by
      intro s hs e' he'
      rw [hent₁, List.mem_append] at hs
      rcases hs with hs | hs
      · exact hout s hs e' (by simp [he'])
      · obtain rfl : s = e := by simpa using (List.mem_filter.mp hs).1
        exact hl.lt he'
    obtain ⟨st', hfold, hres⟩ := ih hl.tail ⟨out₁, (advanceShadows e st.shadowIterators).1⟩ hlt
      fun e' he' => htrack'.imp fun _ _ ht => ⟨ht.ascending, fun k' hk' =>
        ht.hasKey k' ((hl.lt (List.mem_of_mem_head? he')).le.trans hk')⟩
    refine ⟨st', by simp [hstep, hfold], ?_⟩
    rw [hres, hent₁, hkeep₁, List.append_assoc, ← List.filter_append, List.singleton_append]

/-- **A merge never fails**, and writes the candidates that are not shadowed. -/
theorem merge_spec (oldBucket newBucket : Bucket E K) (shadows : List (Bucket E K))
    (keepDeadEntries : Bool) :
    ∃ b, Bucket.merge oldBucket newBucket shadows keepDeadEntries = some b ∧
      b.entries = (candidates oldBucket.entries newBucket.entries).filter
        fun e => decide (Written shadows keepDeadEntries e) := by
  have hasc := ascending_candidates oldBucket.ascending newBucket.ascending
  obtain ⟨st', hfold, hres⟩ := foldlM_maybe_put shadows hasc
    ⟨{ mKeepDeadEntries := keepDeadEntries }, shadows.map Bucket.entries⟩
    (by simp [OutputIterator.entries]) fun e _ => by
      rw [List.forall₂_same]
      intro l hl
      obtain ⟨b, -, rfl⟩ := List.mem_map.mp hl
      exact ⟨b.ascending, fun _ _ => Iff.rfl⟩
  refine ⟨st'.out.getBucket, by simp [Bucket.merge, mergeLoop_eq, hfold], ?_⟩
  simpa [OutputIterator.getBucket, OutputIterator.entries] using hres

/-! ## Looking up -/

namespace Bucket

/-- The entry for a key. -/
def find (b : Bucket E K) (k : K) : Option (BucketEntry E K) :=
  b.entries.find? fun e => decide (e.key = k)

@[simp] theorem find_empty (k : K) : ({} : Bucket E K).find k = none := rfl

theorem find_eq_some_iff {b : Bucket E K} {k : K} {e : BucketEntry E K} :
    b.find k = some e ↔ e ∈ b.entries ∧ e.key = k := by
  constructor
  · intro h
    exact ⟨List.mem_of_find?_eq_some h, by simpa using List.find?_some h⟩
  · rintro ⟨hmem, hkey⟩
    have hsome : (b.find k).isSome := List.find?_isSome.mpr ⟨e, hmem, by simpa using hkey⟩
    obtain ⟨e', he'⟩ := Option.isSome_iff_exists.mp hsome
    have hkey' : e'.key = k := by simpa using List.find?_some he'
    rw [he', b.ascending.key_inj (List.mem_of_find?_eq_some he') hmem (hkey'.trans hkey.symm)]

theorem find_eq_none_iff {b : Bucket E K} {k : K} : b.find k = none ↔ ¬ HasKey b.entries k := by
  simp [find, HasKey]

theorem find_key {b : Bucket E K} {k : K} {e : BucketEntry E K} (h : b.find k = some e) :
    e.key = k := (find_eq_some_iff.mp h).2

/-- **What is found in a merged bucket:** the new entry, or else the old one, unless it is shadowed,
or dead and not kept. -/
theorem find_merge {oldBucket newBucket b : Bucket E K} {shadows : List (Bucket E K)}
    {keepDeadEntries : Bool}
    (h : Bucket.merge oldBucket newBucket shadows keepDeadEntries = some b) (k : K) :
    b.find k = ((newBucket.find k).or (oldBucket.find k)).filter
      fun e => decide (Written shadows keepDeadEntries e) := by
  obtain ⟨b', hb', hentries⟩ := merge_spec oldBucket newBucket shadows keepDeadEntries
  obtain rfl : b' = b := Option.some.inj (hb'.symm.trans h)
  ext e
  rw [find_eq_some_iff, hentries, List.mem_filter,
    mem_candidates oldBucket.ascending newBucket.ascending, Option.filter_eq_some_iff,
    Option.or_eq_some_iff, find_eq_some_iff, find_eq_some_iff, find_eq_none_iff]
  constructor
  · rintro ⟨⟨hmem | ⟨hmem, hne⟩, hw⟩, rfl⟩
    · exact ⟨Or.inl ⟨hmem, rfl⟩, hw⟩
    · exact ⟨Or.inr ⟨fun ⟨s, hs, hkey⟩ => hne s hs hkey, hmem, rfl⟩, hw⟩
  · rintro ⟨⟨hmem, rfl⟩ | ⟨hno, hmem, rfl⟩, hw⟩
    · exact ⟨⟨Or.inl hmem, hw⟩, rfl⟩
    · exact ⟨⟨Or.inr ⟨hmem, fun s hs hkey => hno ⟨s, hs, hkey⟩⟩, hw⟩, rfl⟩

/-- A merge without shadows that keeps dead entries leaves nothing out. -/
theorem find_merge_all {oldBucket newBucket b : Bucket E K}
    (h : Bucket.merge oldBucket newBucket [] true = some b) (k : K) :
    b.find k = (newBucket.find k).or (oldBucket.find k) := by
  have hwritten : ∀ e : BucketEntry E K, decide (Written [] true e) = true := fun e =>
    decide_eq_true ⟨Or.inl rfl, by simp⟩
  rw [find_merge h k]
  cases (newBucket.find k).or (oldBucket.find k) with
  | none => rfl
  | some e => exact Option.filter_some_pos (hwritten e)

end Bucket

/-! ## The bucket of a batch -/

/-- Putting ascending entries, all above what is there, appends them. -/
theorem foldlM_put {l : List (BucketEntry E K)} (hl : Ascending l) (out : OutputIterator E K)
    (hout : ∀ s ∈ out.entries, ∀ e ∈ l, s.key < e.key) (hkeep : out.mKeepDeadEntries = true) :
    ∃ out', l.foldlM OutputIterator.put out = some out' ∧ out'.entries = out.entries ++ l := by
  induction l generalizing out with
  | nil => exact ⟨out, rfl, by simp⟩
  | cons e l ih =>
    obtain ⟨out₁, hput, hkeep₁, hent₁⟩ := put_spec fun s hs => hout s hs e (by simp)
    simp only [hkeep, true_or, if_true] at hent₁
    have hout₁ : ∀ s ∈ out₁.entries, ∀ e' ∈ l, s.key < e'.key := by
      intro s hs e' he'
      rw [hent₁, List.mem_append, List.mem_singleton] at hs
      rcases hs with hs | rfl
      · exact hout s hs e' (by simp [he'])
      · exact hl.lt he'
    obtain ⟨out', hfold, hent⟩ := ih hl.tail out₁ hout₁ (hkeep₁.trans hkeep)
    exact ⟨out', by simp [hput, hfold], by rw [hent, hent₁]; simp⟩

/-- Entries with different keys, sorted, are ascending. -/
theorem ascending_mergeSort {l : List (BucketEntry E K)} (h : (l.map BucketEntry.key).Nodup) :
    Ascending (l.mergeSort fun a b => !cmp b a) := by
  have hperm := List.mergeSort_perm l fun a b => !cmp b a
  have hle : (l.mergeSort fun a b => !cmp b a).Pairwise fun a b => !cmp b a := by
    refine List.pairwise_mergeSort (fun a b c => ?_) (fun a b => ?_) l
    · simp only [cmp, Bool.not_eq_true', decide_eq_false_iff_not, not_lt]
      exact le_trans
    · simpa [cmp] using le_total a.key b.key
  have hne : (l.mergeSort fun a b => !cmp b a).Pairwise fun a b => a.key ≠ b.key :=
    List.pairwise_map.mp ((hperm.map BucketEntry.key).nodup_iff.mpr h)
  refine (hle.and hne).imp fun {a b} hab => lt_of_le_of_ne ?_ hab.2
  simpa [cmp] using hab.1

theorem writeSorted_spec {l : List (BucketEntry E K)} (h : (l.map BucketEntry.key).Nodup) :
    ∃ b, writeSorted l = some b ∧ ∀ e, e ∈ b.entries ↔ e ∈ l := by
  obtain ⟨out, hfold, hent⟩ := foldlM_put (ascending_mergeSort h)
    { mKeepDeadEntries := true } (by simp [OutputIterator.entries]) rfl
  refine ⟨out.getBucket, by simp [writeSorted, hfold], fun e => ?_⟩
  rw [show out.getBucket.entries = out.entries from rfl, hent]
  simp [OutputIterator.entries]

/-- A batch: live entries and dead keys. -/
structure Batch (E K : Type) where
  liveEntries : List E
  deadEntries : List K

/-- The keys within a batch are distinct. -/
def Batch.Distinct (batch : Batch E K) : Prop :=
  (batch.liveEntries.map Keyed.key ++ batch.deadEntries).Nodup

instance (batch : Batch E K) : Decidable batch.Distinct :=
  inferInstanceAs (Decidable (List.Nodup _))

/-- What a batch says about a key: nothing, or that it is dead, or its entry. -/
def Batch.find (batch : Batch E K) (k : K) : Option (BucketEntry E K) :=
  if k ∈ batch.deadEntries then some (.DEADENTRY k)
  else (batch.liveEntries.find? fun e => decide (Keyed.key e = k)).map .LIVEENTRY

/-- **The bucket of a batch says what the batch says.** -/
theorem fresh_spec {batch : Batch E K} (h : batch.Distinct) :
    ∃ b, Bucket.fresh batch.liveEntries batch.deadEntries = some b ∧
      ∀ k, b.find k = batch.find k := by
  obtain ⟨hlive, hdead, -⟩ := List.nodup_append.mp h
  obtain ⟨liveBucket, hl, hlmem⟩ := writeSorted_spec (E := E) (K := K)
    (l := batch.liveEntries.map .LIVEENTRY) (by
      rw [List.map_map]
      exact hlive)
  obtain ⟨deadBucket, hd, hdmem⟩ := writeSorted_spec (E := E) (K := K)
    (l := batch.deadEntries.map .DEADENTRY) (by
      rw [List.map_map]
      simpa [Function.comp_def] using hdead)
  obtain ⟨b, hb, -⟩ := merge_spec liveBucket deadBucket [] true
  refine ⟨b, by simp [Bucket.fresh, hl, hd, hb], fun k => ?_⟩
  rw [Bucket.find_merge_all hb k]
  unfold Batch.find
  split_ifs with hk
  · have hfind : deadBucket.find k = some (.DEADENTRY k) :=
      Bucket.find_eq_some_iff.mpr ⟨(hdmem _).mpr (by simpa using hk), rfl⟩
    rw [hfind, Option.some_or]
  · have hnone : deadBucket.find k = none := by
      rw [Bucket.find_eq_none_iff]
      rintro ⟨s, hs, hkey⟩
      obtain ⟨k', hk', rfl⟩ := List.mem_map.mp ((hdmem s).mp hs)
      exact hk (by rwa [← hkey])
    rw [hnone, Option.none_or]
    -- the live entries have different keys, so the first one found is the only one
    cases hfind : batch.liveEntries.find? fun e => decide (Keyed.key e = k) with
    | none =>
      rw [Option.map_none, Bucket.find_eq_none_iff]
      rintro ⟨s, hs, hkey⟩
      obtain ⟨e, he, rfl⟩ := List.mem_map.mp ((hlmem s).mp hs)
      exact absurd hkey (by simpa using List.find?_eq_none.mp hfind e he)
    | some e =>
      have hkey : Keyed.key e = k := by simpa using List.find?_some hfind
      rw [Option.map_some, Bucket.find_eq_some_iff, hlmem]
      exact ⟨List.mem_map_of_mem (List.mem_of_find?_eq_some hfind), hkey⟩

end SmartCore.Buckets
