import Mathlib.Data.Nat.Pairing
import SmartCore.History.LedgerManager

/-!
# Verifying a chain of ledger headers

`VerifyLedgerChainWork` reads the ledger-header files of an archive, one for each checkpoint, and
links them into a chain that ends with a ledger the network has agreed on. The files come from an
untrusted archive: their entries are arbitrary.

Each header the loop links is checked: its hash is recomputed, its number is the next one and it
names the hash of the header before it. What the work keeps for a checkpoint, however, is the entry it
has read last, `curr`, and that one may have escaped the checks: the first entry of all is accepted
as it is, and an entry whose number was passed already is skipped as harmless prehistory. So an
archive can end a file with a second entry for the checkpoint's ledger, with any header, and the work
reports it as verified (`unverified_header_accepted`).

Main result: `chain_sound_iff`. The chain is sound if and only if the last entry of each file passes
the check it may have escaped.
-/

namespace SmartCore.History

open SCP (Uint32 UINT32_MAX Hash)

/-! ## Checkpoints -/

/-- The checkpoint frequency, 8 in accelerated tests. -/
def getCheckpointFrequency (accelerated : Bool) : Uint32 := if accelerated then 8 else 64

def nextCheckpointLedger (accelerated : Bool) (ledger : Uint32) : Uint32 :=
  let freq := getCheckpointFrequency accelerated
  if ledger = 0 then freq else (ledger + freq - 1) / freq * freq

/-! ## Checking one entry -/

inductive VerifyHashStatus where
  | VERIFY_HASH_OK
  | VERIFY_HASH_BAD
  | VERIFY_HASH_UNKNOWN
deriving DecidableEq, Repr

/-- Does the claimed hash belong to the header? -/
def verifyLedgerHistoryEntry (sha256 : LedgerHeader → Hash) (hhe : LedgerHeaderHistoryEntry) :
    VerifyHashStatus :=
  if sha256 hhe.header = hhe.hash then .VERIFY_HASH_OK else .VERIFY_HASH_BAD

def verifyLedgerHistoryLink (sha256 : LedgerHeader → Hash) (prev : Hash)
    (curr : LedgerHeaderHistoryEntry) : VerifyHashStatus :=
  if verifyLedgerHistoryEntry sha256 curr ≠ .VERIFY_HASH_OK then .VERIFY_HASH_BAD
  else if prev ≠ curr.header.previousLedgerHash then .VERIFY_HASH_BAD
  else .VERIFY_HASH_OK

/-- `CHECK_PAIR`. -/
def checkPair (aseq bseq : Uint32) (ahash bhash : Hash) (next : VerifyHashStatus) :
    VerifyHashStatus :=
  if aseq = bseq then if ahash = bhash then .VERIFY_HASH_OK else .VERIFY_HASH_BAD else next

/-- What the network says about a candidate. -/
def verifyCatchupCandidate (lm : LedgerManager) (candidate : LedgerHeaderHistoryEntry) :
    VerifyHashStatus :=
  let seq := candidate.header.ledgerSeq
  checkPair lm.lcl seq lm.mLastClosedLedger.hash candidate.hash <|
  checkPair lm.lcl (seq + 1) lm.mLastClosedLedger.header.previousLedgerHash candidate.hash <|
  checkPair lm.mCurrentLedger.ledgerSeq (seq + 1) lm.mCurrentLedger.previousLedgerHash
    candidate.hash <|
  lm.mSyncingLedgers.foldr
    (fun ld => checkPair ld.mLedgerSeq (seq + 1) ld.mTxSet.previousLedgerHash candidate.hash)
    .VERIFY_HASH_UNKNOWN

/-! ## The work -/

/-- What a verification runs on: the files of the archive, the ledgers asked for, the node's last
closed ledger when the work was reset, and the ledger manager it asks at the end. The first
checkpoint is that of some ledger, as both catchups compute it. -/
structure ChainWork where
  sha256 : LedgerHeader → Hash
  accelerated : Bool
  files : Uint32 → List LedgerHeaderHistoryEntry
  mFirstLedger : Uint32
  mLastSeq : Uint32
  mManualCatchup : Bool
  lastClosed : LedgerHeaderHistoryEntry
  ledgerManager : LedgerManager

/-- The entry a `LedgerHeaderHistoryEntry()` holds. -/
def emptyEntry : LedgerHeaderHistoryEntry :=
  ⟨0, { previousLedgerHash := 0, scpValue := ⟨0, 0⟩, ledgerSeq := 0 }⟩

/-- The mutable part of the work. `chain` is what the work has gone through from its start (the last
closed ledger, if it starts there, or else the first header it reports) to `mLastVerified`; no
function reads it. -/
structure ChainState where
  mCurrSeq : Uint32
  mFirstVerified : LedgerHeaderHistoryEntry
  mLastVerified : LedgerHeaderHistoryEntry
  chain : List LedgerHeaderHistoryEntry := []
deriving DecidableEq

inductive WorkState where
  | WORK_RUNNING
  | WORK_SUCCESS
  | WORK_FAILURE_RETRY
  | WORK_FAILURE_RAISE
deriving DecidableEq, Repr

/-- In a file, the first header of each ledger after `n` and below `c`. -/
def headersBetween (n c : Uint32) : List LedgerHeaderHistoryEntry → List LedgerHeaderHistoryEntry
  | [] => []
  | e :: l =>
    if e.header.ledgerSeq = n + 1 ∧ e.header.ledgerSeq < c then
      e :: headersBetween e.header.ledgerSeq c l
    else headersBetween n c l

namespace ChainWork

variable (w : ChainWork)

def mFirstSeq : Uint32 := nextCheckpointLedger w.accelerated w.mFirstLedger - 1

/-- `onReset`, on what is left from earlier attempts. -/
def onReset (firstVerified lastVerified : LedgerHeaderHistoryEntry) : ChainState :=
  let lastVerified := if lastVerified.header.ledgerSeq ≠ 0 then w.lastClosed else lastVerified
  { mCurrSeq := w.mFirstSeq
    mFirstVerified := if firstVerified.header.ledgerSeq ≠ 0 then w.lastClosed else firstVerified
    mLastVerified := lastVerified
    chain := if lastVerified.header.ledgerSeq ≠ 0 then [lastVerified] else [] }

/-- The loop over the entries of a file, from `prev` on; `none` is `VERIFY_HASH_BAD`. -/
def verifyEntries (prev : LedgerHeaderHistoryEntry) :
    List LedgerHeaderHistoryEntry → Option LedgerHeaderHistoryEntry
  | [] => some prev
  | curr :: rest =>
    if prev.header.ledgerSeq = 0 then
      -- no previous state to connect up with: accept the first chain entry
      verifyEntries curr rest
    else
      let expectedSeq := prev.header.ledgerSeq + 1
      -- harmless prehistory
      if curr.header.ledgerSeq < expectedSeq then verifyEntries prev rest
      else if expectedSeq < curr.header.ledgerSeq then none
      else if verifyLedgerHistoryLink w.sha256 prev.hash curr ≠ .VERIFY_HASH_OK then none
      else verifyEntries curr rest

/-- What the chain gains with a file that ends with `curr`. -/
def extension (c : Uint32) (prev curr : LedgerHeaderHistoryEntry) : List LedgerHeaderHistoryEntry :=
  if prev.header.ledgerSeq = 0 then [curr]
  else if curr = prev then []
  else headersBetween prev.header.ledgerSeq c (w.files c) ++ [curr]

/-- The network is asked about the last checkpoint only. -/
def candidateStatus (c : Uint32) (curr : LedgerHeaderHistoryEntry) : VerifyHashStatus :=
  if c = w.mLastSeq then
    let status := verifyCatchupCandidate w.ledgerManager curr
    if status = .VERIFY_HASH_UNKNOWN ∧ w.mManualCatchup = true then .VERIFY_HASH_OK else status
  else .VERIFY_HASH_OK

def verifyHistoryOfSingleCheckpoint (s : ChainState) : VerifyHashStatus × ChainState :=
  let prev := s.mLastVerified
  let entries := w.files s.mCurrSeq
  match w.verifyEntries prev entries with
  | none => (.VERIFY_HASH_BAD, s)
  | some _ =>
    let curr := entries.getLast?.getD emptyEntry
    if curr.header.ledgerSeq ≠ s.mCurrSeq then (.VERIFY_HASH_BAD, s)
    else if w.candidateStatus s.mCurrSeq curr = .VERIFY_HASH_OK then
      (.VERIFY_HASH_OK, { s with
        mFirstVerified := if s.mCurrSeq = w.mFirstSeq then curr else s.mFirstVerified
        mLastVerified := curr
        chain := s.chain ++ w.extension s.mCurrSeq prev curr })
    else (w.candidateStatus s.mCurrSeq curr, s)

/-- `onSuccess`; no answer stands for the exception "Verification overshot target ledger". -/
def onSuccess (s : ChainState) : Option (WorkState × ChainState) :=
  if w.mLastSeq < s.mCurrSeq then none
  else
    match w.verifyHistoryOfSingleCheckpoint s with
    | (.VERIFY_HASH_OK, t) =>
      if t.mCurrSeq = w.mLastSeq then some (.WORK_SUCCESS, t)
      else some (.WORK_RUNNING,
        { t with mCurrSeq := t.mCurrSeq + getCheckpointFrequency w.accelerated })
    | (.VERIFY_HASH_UNKNOWN, t) => some (.WORK_FAILURE_RETRY, t)
    | (.VERIFY_HASH_BAD, t) => some (.WORK_FAILURE_RAISE, t)

/-- One attempt: `onSuccess` again and again while the work is running, at most `n` times. -/
def attempt : ℕ → ChainState → Option (WorkState × ChainState)
  | 0, s => some (.WORK_RUNNING, s)
  | n + 1, s =>
    match w.onSuccess s with
    | some (.WORK_RUNNING, t) => attempt n t
    | r => r

end ChainWork

/-! ## Sound chains -/

/-- `b` is the header after `a`. -/
def Linked (a b : LedgerHeaderHistoryEntry) : Prop :=
  b.header.ledgerSeq.val = a.header.ledgerSeq.val + 1 ∧ b.header.previousLedgerHash = a.hash

/-- Headers that carry their own hash and continue the chain after `prev`, if there is one. -/
structure ChainWork.Continues (w : ChainWork) (prev : LedgerHeaderHistoryEntry)
    (l : List LedgerHeaderHistoryEntry) : Prop where
  hashes : ∀ e ∈ l, w.sha256 e.header = e.hash
  linked : if prev.header.ledgerSeq = 0 then l.IsChain Linked else (prev :: l).IsChain Linked

/-- What a successful verification that started in `s` and ended in `t` is for: the headers it went
through are a chain, which starts with the node's last closed ledger (if it started from it) or with
the first header it reports, and ends with the header of the last ledger asked for. -/
structure ChainWork.ChainSound (w : ChainWork) (s t : ChainState) : Prop where
  continues : ∃ l, t.chain = s.chain ++ l ∧ w.Continues s.mLastVerified l
  first : if s.mLastVerified.header.ledgerSeq = 0 then t.chain.head? = some t.mFirstVerified
    else t.chain.head? = some s.mLastVerified ∧ t.mFirstVerified ∈ t.chain
  last : t.chain.getLast? = some t.mLastVerified
  lastSeq : t.mLastVerified.header.ledgerSeq = w.mLastSeq

/-! ## The condition -/

namespace ChainWork

variable (w : ChainWork)

/-- The last header of a file before the checkpoint's own, or `prev` if there is none. -/
def before (c : Uint32) (prev : LedgerHeaderHistoryEntry) : LedgerHeaderHistoryEntry :=
  (headersBetween prev.header.ledgerSeq c (w.files c)).getLast?.getD prev

/-- The last entry of the file for checkpoint `c` passes the check that the loop may have left out.
`prev` is the last entry of the file before, or the node's last closed ledger. -/
def CheckedAt (c : Uint32) (prev curr : LedgerHeaderHistoryEntry) : Prop :=
  if prev.header.ledgerSeq = 0 then verifyLedgerHistoryEntry w.sha256 curr = .VERIFY_HASH_OK
  else curr = prev ∨
    prev.header.ledgerSeq < c ∧
      verifyLedgerHistoryLink w.sha256 (w.before c prev).hash curr = .VERIFY_HASH_OK

/-- The last entries of all files pass, from checkpoint `c` to the last, at most `n` of them. -/
def Checked : ℕ → Uint32 → LedgerHeaderHistoryEntry → Prop
  | 0, _, _ => True
  | n + 1, c, prev =>
    let curr := (w.files c).getLast?.getD emptyEntry
    w.CheckedAt c prev curr ∧
      (c ≠ w.mLastSeq → Checked n (c + getCheckpointFrequency w.accelerated) curr)

variable {w}

/-! ## One file -/

theorem verifyLedgerHistoryLink_iff {sha256 : LedgerHeader → Hash} {prev : Hash}
    {curr : LedgerHeaderHistoryEntry} :
    verifyLedgerHistoryLink sha256 prev curr = .VERIFY_HASH_OK ↔
      sha256 curr.header = curr.hash ∧ curr.header.previousLedgerHash = prev := by
  unfold verifyLedgerHistoryLink verifyLedgerHistoryEntry
  split_ifs <;> simp_all [eq_comm]

theorem verifyLedgerHistoryEntry_iff {sha256 : LedgerHeader → Hash}
    {curr : LedgerHeaderHistoryEntry} :
    verifyLedgerHistoryEntry sha256 curr = .VERIFY_HASH_OK ↔ sha256 curr.header = curr.hash := by
  unfold verifyLedgerHistoryEntry
  split_ifs <;> simp_all

theorem val_add_one {a c : Uint32} (h : a < c) : (a + 1).val = a.val + 1 := by
  rw [Fin.val_add]
  have := c.isLt
  have hlt : a.val < c.val := h
  simp only [Fin.val_one]
  omega

theorem headersBetween_eq_nil {n c : Uint32} (h : ¬ n + 1 < c)
    (l : List LedgerHeaderHistoryEntry) : headersBetween n c l = [] := by
  induction l with
  | nil => rfl
  | cons e l ih =>
    rw [headersBetween, if_neg, ih]
    rintro ⟨heq, hlt⟩
    rw [heq] at hlt
    exact h hlt

/-- The headers below the checkpoint are the ones that the loop has linked. -/
theorem headersBetween_linked {c : Uint32} {prev p : LedgerHeaderHistoryEntry}
    {l : List LedgerHeaderHistoryEntry} (hrun : w.verifyEntries prev l = some p)
    (hpos : prev.header.ledgerSeq ≠ 0) (hlt : prev.header.ledgerSeq < c) :
    (prev :: headersBetween prev.header.ledgerSeq c l).IsChain Linked ∧
      ∀ e ∈ headersBetween prev.header.ledgerSeq c l, w.sha256 e.header = e.hash := by
  induction l generalizing prev with
  | nil => exact ⟨List.isChain_singleton _, by simp [headersBetween]⟩
  | cons e l ih =>
    rw [verifyEntries, if_neg hpos] at hrun
    simp only at hrun
    split_ifs at hrun with hold hover hbad
    · -- prehistory is not the next ledger
      rw [headersBetween, if_neg fun h => hold.ne h.1]
      exact ih hrun hpos hlt
    · have heq : e.header.ledgerSeq = prev.header.ledgerSeq + 1 :=
        le_antisymm (not_lt.mp hover) (not_lt.mp hold)
      have hval := val_add_one hlt
      obtain ⟨hhash, hprev⟩ := verifyLedgerHistoryLink_iff.mp (not_not.mp hbad)
      by_cases hec : e.header.ledgerSeq < c
      · rw [headersBetween, if_pos ⟨heq, hec⟩]
        have hepos : e.header.ledgerSeq ≠ 0 := by
          rw [heq, Ne, Fin.ext_iff, hval]
          simp
        obtain ⟨hchain, hall⟩ := ih hrun hepos hec
        refine ⟨List.isChain_cons_cons.mpr ⟨⟨by rw [heq, hval], hprev⟩, hchain⟩, ?_⟩
        intro e' he'
        rcases List.mem_cons.mp he' with rfl | he'
        · exact hhash
        · exact hall e' he'
      · rw [headersBetween_eq_nil (by rwa [← heq])]
        exact ⟨List.isChain_singleton _, by simp⟩

/-- A file that ends with the checkpoint's ledger goes through the ledger before it. -/
theorem before_seq {c : Uint32} {prev p curr : LedgerHeaderHistoryEntry}
    {l : List LedgerHeaderHistoryEntry} (hrun : w.verifyEntries prev l = some p)
    (hpos : prev.header.ledgerSeq ≠ 0) (hlt : prev.header.ledgerSeq < c)
    (hlast : l.getLast? = some curr) (hcurr : curr.header.ledgerSeq = c) :
    ((headersBetween prev.header.ledgerSeq c l).getLast?.getD prev).header.ledgerSeq.val + 1 =
      c.val := by
  induction l generalizing prev with
  | nil => cases hlast
  | cons e l ih =>
    rw [verifyEntries, if_neg hpos] at hrun
    simp only at hrun
    have hval := val_add_one hlt
    have hltv : prev.header.ledgerSeq.val < c.val := hlt
    -- the last entry is never below the next ledger
    have hlast' : l ≠ [] ∨ e = curr := by
      cases l with
      | nil => exact Or.inr (Option.some.inj hlast)
      | cons e' l => exact Or.inl (by simp)
    split_ifs at hrun with hold hover hbad
    · rw [headersBetween, if_neg fun h => hold.ne h.1]
      refine ih hrun hpos hlt ?_
      rcases hlast' with hne | rfl
      · rwa [List.getLast?_cons_of_ne_nil hne] at hlast
      · exfalso
        have : e.header.ledgerSeq.val < (prev.header.ledgerSeq + 1).val := hold
        rw [hcurr] at this
        omega
    · have heq : e.header.ledgerSeq = prev.header.ledgerSeq + 1 :=
        le_antisymm (not_lt.mp hover) (not_lt.mp hold)
      by_cases hec : e.header.ledgerSeq < c
      · rw [headersBetween, if_pos ⟨heq, hec⟩]
        have hepos : e.header.ledgerSeq ≠ 0 := by
          rw [heq, Ne, Fin.ext_iff, hval]
          simp
        have hne : l ≠ [] := by
          rcases hlast' with hne | rfl
          · exact hne
          · exact absurd hcurr hec.ne
        rw [List.getLast?_cons_of_ne_nil hne] at hlast
        rw [List.getLast?_cons, Option.getD_some]
        exact ih hrun hepos hec hlast
      · rw [headersBetween_eq_nil (by rwa [← heq])]
        have : ¬ (e.header.ledgerSeq.val < c.val) := hec
        rw [heq, hval] at this
        simp only [List.getLast?_nil, Option.getD_none]
        omega

/-- Along a chain the numbers rise. -/
theorem seq_lt_of_linked {a b : LedgerHeaderHistoryEntry} {l : List LedgerHeaderHistoryEntry}
    (h : (a :: l).IsChain Linked) (hb : b ∈ l) : a.header.ledgerSeq < b.header.ledgerSeq := by
  have hlt : (a :: l).IsChain fun x y => x.header.ledgerSeq < y.header.ledgerSeq := by
    refine h.imp fun x y hxy => ?_
    rw [Fin.lt_def, hxy.1]
    exact Nat.lt_succ_self _
  have htrans : Trans (fun x y : LedgerHeaderHistoryEntry => x.header.ledgerSeq < y.header.ledgerSeq)
      (fun x y : LedgerHeaderHistoryEntry => x.header.ledgerSeq < y.header.ledgerSeq)
      (fun x y : LedgerHeaderHistoryEntry => x.header.ledgerSeq < y.header.ledgerSeq) :=
    ⟨fun hxy hyz => lt_trans hxy hyz⟩
  exact List.rel_of_pairwise_cons (List.isChain_iff_pairwise.mp hlt) hb

/-- A chain that goes on after `prev`, one header longer. -/
theorem isChain_concat {prev curr : LedgerHeaderHistoryEntry} {l : List LedgerHeaderHistoryEntry} :
    (prev :: (l ++ [curr])).IsChain Linked ↔
      (prev :: l).IsChain Linked ∧ Linked (l.getLast?.getD prev) curr := by
  rw [← List.cons_append, List.isChain_append]
  have hlast : (prev :: l).getLast? = some (l.getLast?.getD prev) := by
    rw [List.getLast?_cons]
  simp [hlast]

/-- With the entries of a file, what the work goes through continues the chain if and only if the
file's last entry passes its check. -/
theorem continues_extension_iff {c : Uint32} {prev p curr : LedgerHeaderHistoryEntry}
    (hrun : w.verifyEntries prev (w.files c) = some p) (hlast : (w.files c).getLast? = some curr)
    (hcurr : curr.header.ledgerSeq = c) :
    w.Continues prev (w.extension c prev curr) ↔ w.CheckedAt c prev curr := by
  unfold extension CheckedAt
  by_cases hpos : prev.header.ledgerSeq = 0
  · rw [if_pos hpos, if_pos hpos, verifyLedgerHistoryEntry_iff]
    refine ⟨fun h => h.hashes curr (List.mem_singleton.mpr rfl), fun h => ⟨by simpa using h, ?_⟩⟩
    rw [if_pos hpos]
    exact List.isChain_singleton _
  rw [if_neg hpos, if_neg hpos]
  by_cases heq : curr = prev
  · rw [if_pos heq]
    refine ⟨fun _ => Or.inl heq, fun _ => ⟨by simp, ?_⟩⟩
    rw [if_neg hpos]
    exact List.isChain_singleton _
  rw [if_neg heq, or_iff_right heq, verifyLedgerHistoryLink_iff]
  constructor
  · intro h
    have hlinked := h.linked
    rw [if_neg hpos] at hlinked
    refine ⟨?_, h.hashes curr (by simp), (isChain_concat.mp hlinked).2.2⟩
    rw [← hcurr]
    exact seq_lt_of_linked hlinked (by simp)
  · rintro ⟨hlt, hhash, hprev⟩
    obtain ⟨hchain, hall⟩ := headersBetween_linked hrun hpos hlt
    refine ⟨fun e he => ?_, ?_⟩
    · rcases List.mem_append.mp he with he | he
      · exact hall e he
      · rw [List.mem_singleton.mp he]
        exact hhash
    · rw [if_neg hpos, isChain_concat]
      refine ⟨hchain, ?_, hprev⟩
      rw [hcurr]
      exact (before_seq hrun hpos hlt hlast hcurr).symm

/-- Two pieces of a chain. -/
theorem continues_append_iff {prev curr : LedgerHeaderHistoryEntry}
    {l l' : List LedgerHeaderHistoryEntry} (hlast : l.getLast?.getD prev = curr)
    (hpos : curr.header.ledgerSeq ≠ 0) :
    w.Continues prev (l ++ l') ↔ w.Continues prev l ∧ w.Continues curr l' := by
  have hlinked : (if prev.header.ledgerSeq = 0 then (l ++ l').IsChain Linked
        else (prev :: (l ++ l')).IsChain Linked) ↔
      (if prev.header.ledgerSeq = 0 then l.IsChain Linked else (prev :: l).IsChain Linked) ∧
        (curr :: l').IsChain Linked := by
    rcases List.eq_nil_or_concat' l with rfl | ⟨m, b, rfl⟩
    · obtain rfl : prev = curr := hlast
      simp [hpos]
    · obtain rfl : b = curr := by simpa using hlast
      split_ifs
      · rw [List.append_assoc, List.singleton_append, List.isChain_split]
      · rw [← List.cons_append, ← List.cons_append, List.append_assoc, List.singleton_append,
          List.isChain_split]
  constructor
  · rintro ⟨hhashes, hl⟩
    obtain ⟨h₁, h₂⟩ := hlinked.mp hl
    refine ⟨⟨fun e he => hhashes e (List.mem_append_left _ he), h₁⟩,
      ⟨fun e he => hhashes e (List.mem_append_right _ he), ?_⟩⟩
    rw [if_neg hpos]
    exact h₂
  · rintro ⟨⟨hhashes, h₁⟩, ⟨hhashes', h₂⟩⟩
    rw [if_neg hpos] at h₂
    refine ⟨fun e he => ?_, hlinked.mpr ⟨h₁, h₂⟩⟩
    rcases List.mem_append.mp he with he | he
    · exact hhashes e he
    · exact hhashes' e he

/-! ## Runs -/

/-- The number of a checkpoint's last ledger. -/
def Aligned (accelerated : Bool) (c : Uint32) : Prop :=
  (c.val + 1) % (getCheckpointFrequency accelerated).val = 0

theorem aligned_mFirstSeq : Aligned w.accelerated w.mFirstSeq := by
  unfold Aligned mFirstSeq nextCheckpointLedger getCheckpointFrequency
  cases w.accelerated <;> by_cases h : w.mFirstLedger = 0 <;>
    simp [h, Fin.val_sub, Fin.val_add, Fin.val_mul, Fin.div_val] <;> omega

theorem Aligned.ne_zero {b : Bool} {c : Uint32} (h : Aligned b c) : c ≠ 0 := by
  rintro rfl
  cases b <;> simp [Aligned, getCheckpointFrequency] at h

/-- The next checkpoint, when there is a later ledger at all. -/
theorem Aligned.next {b : Bool} {c d : Uint32} (h : Aligned b c) (hlt : c < d) :
    Aligned b (c + getCheckpointFrequency b) ∧ c < c + getCheckpointFrequency b := by
  have hd := d.isLt
  have hltv : c.val < d.val := hlt
  rw [Fin.lt_def]
  unfold Aligned getCheckpointFrequency at *
  cases b <;> simp [Fin.val_add] at h ⊢ <;> omega

/-- A checkpoint that is accepted: its file passes the loop and ends with the right ledger. -/
structure Accepted (w : ChainWork) (s t : ChainState) (curr : LedgerHeaderHistoryEntry) : Prop where
  entries : w.verifyEntries s.mLastVerified (w.files s.mCurrSeq) ≠ none
  file : (w.files s.mCurrSeq).getLast? = some curr
  seq : curr.header.ledgerSeq = s.mCurrSeq
  first : t.mFirstVerified = if s.mCurrSeq = w.mFirstSeq then curr else s.mFirstVerified
  last : t.mLastVerified = curr
  chain : t.chain = s.chain ++ w.extension s.mCurrSeq s.mLastVerified curr

theorem verifyHistoryOfSingleCheckpoint_ok {s t : ChainState} (hpos : s.mCurrSeq ≠ 0)
    (h : w.verifyHistoryOfSingleCheckpoint s = (.VERIFY_HASH_OK, t)) :
    t.mCurrSeq = s.mCurrSeq ∧ ∃ curr, w.Accepted s t curr := by
  unfold verifyHistoryOfSingleCheckpoint at h
  simp only at h
  split at h
  · simp at h
  rename_i p hp
  split at h
  · simp at h
  rename_i hseq
  have hfile : (w.files s.mCurrSeq).getLast? =
      some ((w.files s.mCurrSeq).getLast?.getD emptyEntry) := by
    cases hl : (w.files s.mCurrSeq).getLast? with
    | none =>
      rw [hl] at hseq
      exact absurd (not_not.mp hseq).symm hpos
    | some e => rfl
  split at h
  · obtain ⟨-, rfl⟩ := Prod.mk.inj h
    exact ⟨rfl, _, by simp [hp], hfile, not_not.mp hseq, rfl, rfl, rfl⟩
  · rename_i hbad
    exact absurd (Prod.mk.inj h).1 hbad

theorem onSuccess_cases {s t : ChainState} {r : WorkState} (hpos : s.mCurrSeq ≠ 0)
    (h : w.onSuccess s = some (r, t)) (hr : r = .WORK_SUCCESS ∨ r = .WORK_RUNNING) :
    ∃ curr, w.Accepted s t curr ∧
      ((r = .WORK_SUCCESS ∧ s.mCurrSeq = w.mLastSeq) ∨
        (r = .WORK_RUNNING ∧ s.mCurrSeq < w.mLastSeq ∧
          t.mCurrSeq = s.mCurrSeq + getCheckpointFrequency w.accelerated)) := by
  unfold onSuccess at h
  split_ifs at h with hover
  split at h
  · rename_i t' ht'
    obtain ⟨hseq, curr, hacc⟩ := verifyHistoryOfSingleCheckpoint_ok hpos ht'
    split_ifs at h with hlast
    · obtain ⟨rfl, rfl⟩ := Prod.mk.inj (Option.some.inj h)
      exact ⟨curr, hacc, Or.inl ⟨rfl, hseq ▸ hlast⟩⟩
    · obtain ⟨rfl, rfl⟩ := Prod.mk.inj (Option.some.inj h)
      refine ⟨curr, ⟨hacc.entries, hacc.file, hacc.seq, hacc.first, hacc.last, hacc.chain⟩,
        Or.inr ⟨rfl, lt_of_le_of_ne (not_lt.mp hover) (hseq ▸ hlast), ?_⟩⟩
      rw [hseq]
  · obtain ⟨rfl, -⟩ := Prod.mk.inj (Option.some.inj h)
    simp at hr
  · obtain ⟨rfl, -⟩ := Prod.mk.inj (Option.some.inj h)
    simp at hr

/-- The chain ends with the file's last entry. -/
theorem extension_getLast (w : ChainWork) (c : Uint32) (prev curr : LedgerHeaderHistoryEntry) :
    (w.extension c prev curr).getLast?.getD prev = curr := by
  unfold extension
  split_ifs with hpos heq
  · rfl
  · simpa using heq.symm
  · simp

/-- What an attempt that succeeds has gone through. -/
structure Verified (w : ChainWork) (n : ℕ) (s t : ChainState) (l : List LedgerHeaderHistoryEntry) :
    Prop where
  chain : t.chain = s.chain ++ l
  last : t.mLastVerified = l.getLast?.getD s.mLastVerified
  lastSeq : t.mLastVerified.header.ledgerSeq = w.mLastSeq
  continues : w.Continues s.mLastVerified l ↔ w.Checked n s.mCurrSeq s.mLastVerified
  later : w.mFirstSeq < s.mCurrSeq → t.mFirstVerified = s.mFirstVerified
  first : s.mCurrSeq = w.mFirstSeq →
    ∃ l', l = w.extension s.mCurrSeq s.mLastVerified t.mFirstVerified ++ l'
  file : s.mCurrSeq = w.mFirstSeq → (w.files w.mFirstSeq).getLast? = some t.mFirstVerified

theorem Accepted.getD_file {s t : ChainState} {curr : LedgerHeaderHistoryEntry}
    (h : w.Accepted s t curr) : (w.files s.mCurrSeq).getLast?.getD emptyEntry = curr := by
  rw [h.file]
  rfl

theorem attempt_verified {n : ℕ} {s t : ChainState} (hal : Aligned w.accelerated s.mCurrSeq)
    (h : w.attempt n s = some (.WORK_SUCCESS, t)) : ∃ l, w.Verified n s t l := by
  induction n generalizing s with
  | zero => simp [attempt] at h
  | succ n ih =>
    rw [attempt] at h
    split at h
    · -- one more checkpoint, and the rest of the run
      rename_i u hu
      obtain ⟨curr, hacc, ⟨hr, -⟩ | ⟨-, hlt, hcurr⟩⟩ := onSuccess_cases hal.ne_zero hu (Or.inr rfl)
      · cases hr
      obtain ⟨hal', hrise⟩ := hal.next hlt
      rw [← hcurr] at hal' hrise
      obtain ⟨l, hl⟩ := ih hal' h
      obtain ⟨p, hp⟩ := Option.ne_none_iff_exists'.mp hacc.entries
      refine ⟨w.extension s.mCurrSeq s.mLastVerified curr ++ l, ?_, ?_, hl.lastSeq, ?_, ?_, ?_, ?_⟩
      · rw [hl.chain, hacc.chain, List.append_assoc]
      · rw [hl.last, hacc.last, List.getLast?_append]
        cases l.getLast? with
        | none => exact (extension_getLast w _ _ _).symm
        | some e => rfl
      · rw [continues_append_iff (extension_getLast w _ _ _) (by rw [hacc.seq]; exact hal.ne_zero),
          continues_extension_iff hp hacc.file hacc.seq, Checked, hacc.getD_file]
        have hrest := hl.continues
        rw [hacc.last, hcurr] at hrest
        rw [hrest]
        exact and_congr_right fun _ => ⟨fun hc _ => hc, fun hc => hc hlt.ne⟩
      · intro hfirst
        rw [hl.later (hfirst.trans hrise), hacc.first, if_neg hfirst.ne']
      · intro hfirst
        refine ⟨l, ?_⟩
        rw [hl.later (by rw [← hfirst]; exact hrise), hacc.first, if_pos hfirst]
      · intro hfirst
        rw [hl.later (hfirst ▸ hrise), hacc.first, if_pos hfirst, ← hfirst]
        exact hacc.file
    · obtain ⟨curr, hacc, ⟨-, hlast⟩ | ⟨hr, -⟩⟩ := onSuccess_cases hal.ne_zero h (Or.inl rfl)
      · obtain ⟨p, hp⟩ := Option.ne_none_iff_exists'.mp hacc.entries
        refine ⟨w.extension s.mCurrSeq s.mLastVerified curr, hacc.chain, ?_, ?_, ?_, ?_, ?_, ?_⟩
        · rw [hacc.last, extension_getLast]
        · rw [hacc.last, hacc.seq, hlast]
        · rw [continues_extension_iff hp hacc.file hacc.seq, Checked, hacc.getD_file]
          exact ⟨fun hc => ⟨hc, fun hne => absurd hlast hne⟩, fun hc => hc.1⟩
        · intro hfirst
          rw [hacc.first, if_neg hfirst.ne']
        · intro hfirst
          refine ⟨[], ?_⟩
          rw [hacc.first, if_pos hfirst, List.append_nil]
        · intro hfirst
          rw [hacc.first, if_pos hfirst, ← hfirst]
          exact hacc.file
      · cases hr

theorem Verified.chainSound_iff {n : ℕ} {firstVerified lastVerified : LedgerHeaderHistoryEntry}
    {t : ChainState} {l : List LedgerHeaderHistoryEntry}
    (h : w.Verified n (w.onReset firstVerified lastVerified) t l) :
    w.ChainSound (w.onReset firstVerified lastVerified) t ↔
      w.Continues (w.onReset firstVerified lastVerified).mLastVerified l := by
  obtain ⟨s, hs⟩ : ∃ s, s = w.onReset firstVerified lastVerified := ⟨_, rfl⟩
  have hstart : s.chain = if s.mLastVerified.header.ledgerSeq ≠ 0 then [s.mLastVerified] else [] := by
    rw [hs]
    rfl
  have hcurr : s.mCurrSeq = w.mFirstSeq := by rw [hs]; rfl
  rw [← hs] at h ⊢
  obtain ⟨l', hl'⟩ := h.first hcurr
  have hchain := h.chain
  constructor
  · rintro ⟨⟨l₁, hl₁, hcont⟩, -⟩
    rw [hchain] at hl₁
    rwa [List.append_cancel_left hl₁]
  · intro hcont
    refine ⟨⟨l, hchain, hcont⟩, ?_, ?_, h.lastSeq⟩
    · by_cases hpos : s.mLastVerified.header.ledgerSeq = 0
      · rw [if_pos hpos, hchain, hstart, if_neg (not_not.mpr hpos), hl', extension, if_pos hpos]
        rfl
      · rw [if_neg hpos, hchain, hstart, if_pos hpos]
        refine ⟨rfl, ?_⟩
        by_cases heq : t.mFirstVerified = s.mLastVerified
        · rw [heq]
          exact List.mem_cons_self
        · rw [hl', extension, if_neg hpos, if_neg heq]
          simp
    · rw [h.last, hchain, hstart]
      by_cases hpos : s.mLastVerified.header.ledgerSeq = 0
      · rw [if_neg (not_not.mpr hpos), hl', extension, if_pos hpos, List.nil_append,
          List.singleton_append, List.getLast?_cons]
        rfl
      · rw [if_pos hpos, List.singleton_append, List.getLast?_cons]

end ChainWork

/-- **A verified chain is sound exactly when the last entries are checked.** The files are
arbitrary, and so is what earlier attempts have left. -/
theorem chain_sound_iff (w : ChainWork) (firstVerified lastVerified : LedgerHeaderHistoryEntry)
    (n : ℕ) (t : ChainState)
    (h : w.attempt n (w.onReset firstVerified lastVerified) = some (.WORK_SUCCESS, t)) :
    w.ChainSound (w.onReset firstVerified lastVerified) t ↔
      w.Checked n w.mFirstSeq (w.onReset firstVerified lastVerified).mLastVerified := by
  obtain ⟨l, hl⟩ := ChainWork.attempt_verified ChainWork.aligned_mFirstSeq h
  exact hl.chainSound_iff.trans hl.continues

/-! ## An archive with one file -/

/-- An injective hash. -/
def pairHash (h : LedgerHeader) : Hash :=
  Nat.pair h.ledgerSeq (Nat.pair h.rest (Nat.pair h.bucketListHash (Nat.pair h.previousLedgerHash
    (Nat.pair h.scpValue.txSetHash h.scpValue.rest))))

theorem pairHash_injective : Function.Injective pairHash := by
  intro a b h
  obtain ⟨_, ⟨_, _⟩, _, _, _⟩ := a
  obtain ⟨_, ⟨_, _⟩, _, _, _⟩ := b
  simp only [pairHash, Nat.pair_eq_pair, Fin.val_inj] at h
  simp [h]

/-- The header of ledger 63, as the network has closed it. -/
def header63 : LedgerHeader :=
  { previousLedgerHash := 0, scpValue := ⟨0, 0⟩, bucketListHash := 1, ledgerSeq := 63 }

/-- Another header, under the hash of the right one. -/
def forged63 : LedgerHeaderHistoryEntry := ⟨pairHash header63, { header63 with bucketListHash := 2 }⟩

/-- A node that has heard from the network of ledger 64 and catches up to ledger 63. -/
def catchupTo63 (file : List LedgerHeaderHistoryEntry) : ChainWork where
  sha256 := pairHash
  accelerated := false
  files c := if c = 63 then file else []
  mFirstLedger := 64
  mLastSeq := 63
  mManualCatchup := false
  lastClosed := headerOf 1
  ledgerManager :=
    { mLastClosedLedger := headerOf 1
      mCurrentLedger := Application.nextHeader (headerOf 1)
      mSyncingLedgers := [⟨64, ⟨pairHash header63, 0⟩, ⟨0, 0⟩, rfl⟩] }

/-- The ledger after another, with a set of transactions. -/
def nextLedger (prev : LedgerHeaderHistoryEntry) (txSetHash : Hash) : LedgerHeaderHistoryEntry :=
  let header : LedgerHeader :=
    { previousLedgerHash := prev.hash
      scpValue := ⟨txSetHash, 0⟩
      bucketListHash := 1
      ledgerSeq := prev.header.ledgerSeq + 1 }
  ⟨pairHash header, header⟩

def paying62 : LedgerHeaderHistoryEntry := nextLedger (headerOf 61) 7

def following63 : LedgerHeaderHistoryEntry := nextLedger paying62 0

/-- A node that has closed ledger 61 and verifies again, from that ledger on. -/
def catchupFrom61 : ChainWork :=
  { catchupTo63 [headerOf 61, paying62, following63] with
    mFirstLedger := 62
    lastClosed := headerOf 61
    ledgerManager :=
      { mState := .LM_CATCHING_UP_STATE
        mLastClosedLedger := headerOf 61
        mCurrentLedger := Application.nextHeader (headerOf 61)
        mSyncingLedgers := [⟨64, ⟨following63.hash, 0⟩, ⟨0, 0⟩, rfl⟩] } }

theorem chain_sound_catchupFrom61 :
    ∃ t, catchupFrom61.attempt 1 (catchupFrom61.onReset emptyEntry (headerOf 61)) =
        some (.WORK_SUCCESS, t) ∧
      catchupFrom61.ChainSound (catchupFrom61.onReset emptyEntry (headerOf 61)) t ∧
      t.chain = [headerOf 61, paying62, following63] := by
  have hrun : catchupFrom61.attempt 1 (catchupFrom61.onReset emptyEntry (headerOf 61)) =
      some (.WORK_SUCCESS,
        ⟨63, following63, following63, [headerOf 61, paying62, following63]⟩) := by
    decide +kernel
  refine ⟨_, hrun, (chain_sound_iff _ _ _ 1 _ hrun).mpr ⟨Or.inr ⟨?_, ?_⟩, fun h => absurd rfl h⟩,
    rfl⟩ <;> decide +kernel

/-- The archive ends its file with a second entry for ledger 63. The work reports it as verified. -/
theorem unverified_header_accepted :
    Function.Injective pairHash ∧
    ∃ t, (catchupTo63 [⟨pairHash header63, header63⟩, forged63]).attempt 1
        ((catchupTo63 [⟨pairHash header63, header63⟩, forged63]).onReset emptyEntry emptyEntry) =
        some (.WORK_SUCCESS, t) ∧
      t.mFirstVerified = forged63 ∧ t.mLastVerified = forged63 ∧
      pairHash forged63.header ≠ forged63.hash := by
  refine ⟨pairHash_injective, ⟨63, forged63, forged63, [forged63]⟩, ?_, rfl, rfl, ?_⟩ <;>
    decide +kernel

end SmartCore.History
