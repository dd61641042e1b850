import Mathlib.Data.List.Induction
import SmartCore.Lib.Table
import SmartCore.SCP.Types

/-!
# The floodgate

For each message, by its hash, the floodgate has a record of the peers that have sent it to us or been
sent it. A broadcast sends the message to the other authenticated peers. Records of old ledgers are
cleared.

A broadcast that is forced is to reach everybody again. It makes a new record, but `insert` leaves the
one that is there where it is. So all authenticated peers are sent the message again just if none of
them is in a record (`lawful_iff`).
-/

namespace SmartCore.Overlay.Flood

open SCP (Uint32)

/-! ## The code -/

/-- Peers are known by their pointers. -/
abbrev PeerId := ℕ

section Code

variable {M H : Type} [LinearOrder H]

structure FloodRecord (M : Type) where
  mLedgerSeq : Uint32
  mMessage : M
  mPeersTold : Std.ExtTreeSet PeerId := ∅

def FloodRecord.make (msg : M) (ledger : Uint32) (peer : Option PeerId) : FloodRecord M :=
  { mLedgerSeq := ledger
    mMessage := msg
    mPeersTold := peer.elim ∅ fun p => (∅ : Std.ExtTreeSet PeerId).insert p }

structure Floodgate (M H : Type) [LinearOrder H] where
  mFloodMap : Table H (FloodRecord M) := ∅
  mShuttingDown : Bool := false

variable (sha256 : M → H) (f : Floodgate M H)

/-- Give one ledger of leeway. -/
def FloodRecord.isOld (currentLedger : Uint32) (r : FloodRecord M) : Bool :=
  r.mLedgerSeq + 10 < currentLedger

/-- Remove old flood records. -/
def Floodgate.clearBelow (currentLedger : Uint32) : Floodgate M H :=
  { f with mFloodMap := f.mFloodMap.filter fun _ r => !r.isOld currentLedger }

/-- Whether the record is new. -/
def Floodgate.addRecord (currentLedgerSeq : Uint32) (msg : M) (peer : PeerId) :
    Bool × Floodgate M H :=
  if f.mShuttingDown then (false, f)
  else
    let index := sha256 msg
    match f.mFloodMap[index]? with
    -- we have never seen this message
    | none =>
      (true, { f with mFloodMap := f.mFloodMap.insert index (.make msg currentLedgerSeq (some peer)) })
    | some record =>
      let record := { record with mPeersTold := record.mPeersTold.insert peer }
      (false, { f with mFloodMap := f.mFloodMap.insert index record })

/-- One turn of the loop over the peers: who is told, and who is sent the message, the last one
first. -/
def tell (acc : Std.ExtTreeSet PeerId × List PeerId) (peer : PeerId × Bool) :
    Std.ExtTreeSet PeerId × List PeerId :=
  if peer.1 ∉ acc.1 ∧ peer.2 then (acc.1.insert peer.1, peer.1 :: acc.2) else acc

/-- The peers come with whether they are authenticated. -/
def Floodgate.broadcast (currentLedgerSeq : Uint32) (peers : List (PeerId × Bool)) (msg : M)
    (force : Bool) : List PeerId × Floodgate M H :=
  if f.mShuttingDown then ([], f)
  else
    let index := sha256 msg
    let mFloodMap :=
      if f.mFloodMap[index]? = none ∨ force then
        f.mFloodMap.insertIfNew index (.make msg currentLedgerSeq none)
      else f.mFloodMap
    match mFloodMap[index]? with
    | none => ([], f)
    | some record =>
      -- send it to people that haven't sent it to us
      let (peersTold, sent) := peers.foldl tell (record.mPeersTold, [])
      (sent, { f with mFloodMap := mFloodMap.insert index { record with mPeersTold := peersTold } })

end Code

/-! ## Runs -/

/-- What happens to messages. -/
inductive Event (M : Type) where
  | received (peer : PeerId) (msg : M)
  | sent (peer : PeerId) (msg : M) (force : Bool)
  | cleared (msg : M)
deriving DecidableEq

/-- The floodgate, the peers, and what has happened, the last first. -/
structure State (M H : Type) [LinearOrder H] where
  floodgate : Floodgate M H := {}
  peers : List (PeerId × Bool) := []
  log : List (Event M) := []

inductive Op (M : Type) where
  | addRecord (msg : M) (peer : PeerId) (currentLedgerSeq : Uint32)
  | broadcast (msg : M) (force : Bool) (currentLedgerSeq : Uint32)
  | clearBelow (currentLedger : Uint32)
  | connect (peer : PeerId)
  | authenticate (peer : PeerId)
  | disconnect (peer : PeerId)

def Op.message {M : Type} : Op M → Option M
  | .addRecord msg _ _ | .broadcast msg _ _ => some msg
  | _ => none

section Runs

variable {M H : Type} [LinearOrder H] (sha256 : M → H)

def step (s : State M H) : Op M → State M H
  | .addRecord msg peer currentLedgerSeq =>
    { s with
      floodgate := (s.floodgate.addRecord sha256 currentLedgerSeq msg peer).2
      log := .received peer msg :: s.log }
  | .broadcast msg force currentLedgerSeq =>
    let result := s.floodgate.broadcast sha256 currentLedgerSeq s.peers msg force
    { s with floodgate := result.2, log := result.1.map (.sent · msg force) ++ s.log }
  | .clearBelow currentLedger =>
    let old := s.floodgate.mFloodMap.toList.filter fun i => i.2.isOld currentLedger
    { s with
      floodgate := s.floodgate.clearBelow currentLedger
      log := old.map (fun i => .cleared i.2.mMessage) ++ s.log }
  | .connect peer => { s with peers := s.peers ++ [(peer, false)] }
  | .authenticate peer =>
    { s with peers := s.peers.map fun p => if p.1 = peer then (peer, true) else p }
  | .disconnect peer => { s with peers := s.peers.filter fun p => p.1 ≠ peer }

def run (ops : List (Op M)) : State M H := ops.foldl (step sha256) {}

/-- `HerderImpl::rebroadcast`, of the latest messages. -/
def rebroadcast (MANUAL_CLOSE : Bool) (messages : List M) (currentLedgerSeq : Uint32) :
    List (Op M) :=
  if MANUAL_CLOSE then [] else messages.map fun msg => .broadcast msg true currentLedgerSeq

end Runs

/-! ## The law -/

section Law

variable {M H : Type} [DecidableEq M] [LinearOrder H] (sha256 : M → H)

/-- What has happened since the record of the message was cleared. -/
def recent (msg : M) (log : List (Event M)) : List (Event M) :=
  log.takeWhile (· ≠ .cleared msg)

/-- The peer has sent us the message or been sent it. -/
def Told (msg : M) (peer : PeerId) (log : List (Event M)) : Prop :=
  .received peer msg ∈ recent msg log ∨ ∃ force, .sent peer msg force ∈ recent msg log

/-- Without force no peer is sent a message twice, or if it had sent it to us. -/
def NoRepeat (log : List (Event M)) : Prop :=
  ∀ peer msg newer older, log = newer ++ .sent peer msg false :: older →
    .received peer msg ∉ recent msg older ∧ .sent peer msg false ∉ recent msg older

/-- After a broadcast all authenticated peers have sent or been sent the message, and with force they
are sent it then. -/
structure Reaches (s : State M H) (msg : M) (force : Bool) (currentLedgerSeq : Uint32) : Prop where
  told : ∀ peer, (peer, true) ∈ s.peers →
    Told msg peer (step sha256 s (.broadcast msg force currentLedgerSeq)).log
  again : force = true → ∀ peer, (peer, true) ∈ s.peers →
    ∃ sent, (step sha256 s (.broadcast msg force currentLedgerSeq)).log = sent ++ s.log ∧
      .sent peer msg true ∈ sent

def Lawful (ops : List (Op M)) : Prop :=
  NoRepeat (run sha256 ops).log ∧
    ∀ pre msg force currentLedgerSeq post,
      ops = pre ++ .broadcast msg force currentLedgerSeq :: post →
      Reaches sha256 (run sha256 pre) msg force currentLedgerSeq

/-- Whenever a broadcast is forced, no authenticated peer is in a record of the message. -/
def ForcedUntold (ops : List (Op M)) : Prop :=
  ∀ pre msg currentLedgerSeq post, ops = pre ++ .broadcast msg true currentLedgerSeq :: post →
    ∀ peer, (peer, true) ∈ (run sha256 pre).peers →
      ∀ record, (run sha256 pre).floodgate.mFloodMap[sha256 msg]? = some record →
        peer ∉ record.mPeersTold

end Law

/-! ## What has happened recently -/

section Recent

variable {M : Type} [DecidableEq M] {msg msg' : M} {peer : PeerId} {log older : List (Event M)}
  {e : Event M}

theorem told_cons : Told msg peer (e :: log) ↔
    e = .received peer msg ∨ (∃ force, e = .sent peer msg force) ∨
      e ≠ .cleared msg ∧ Told msg peer log := by
  unfold Told recent
  by_cases h : e = .cleared msg
  · subst h
    simp
  · rw [List.takeWhile_cons_of_pos (by simpa using h)]
    simp only [List.mem_cons, h, not_false_eq_true, ne_eq, true_and, exists_or, eq_comm]
    tauto

/-- Records of these messages are cleared. -/
theorem told_cleared (old : List M) :
    Told msg peer (old.map .cleared ++ log) ↔ msg ∉ old ∧ Told msg peer log := by
  induction old with
  | nil => simp
  | cons m old ih =>
    rw [List.map_cons, List.cons_append, told_cons, ih]
    simp only [reduceCtorEq, exists_false, false_or, ne_eq, Event.cleared.injEq, List.mem_cons,
      not_or, eq_comm, and_assoc]

theorem told_sent (ps : List PeerId) (force : Bool) :
    Told msg peer (ps.map (.sent · msg' force) ++ log) ↔
      msg = msg' ∧ peer ∈ ps ∨ Told msg peer log := by
  induction ps with
  | nil => simp
  | cons p ps ih =>
    rw [List.map_cons, List.cons_append, told_cons, ih]
    simp only [reduceCtorEq, false_or, ne_eq, not_false_eq_true, true_and, Event.sent.injEq,
      List.mem_cons]
    constructor
    · rintro (⟨_, rfl, rfl, rfl⟩ | h | h)
      · exact .inl ⟨rfl, .inl rfl⟩
      · exact .inl ⟨h.1, .inr h.2⟩
      · exact .inr h
    · rintro (⟨rfl, rfl | h⟩ | h)
      · exact .inl ⟨force, rfl, rfl, rfl⟩
      · exact .inr (.inl ⟨rfl, h⟩)
      · exact .inr (.inr h)

/-- Something else happens. -/
theorem NoRepeat.cons (h : NoRepeat log) (he : ∀ peer msg, e ≠ .sent peer msg false) :
    NoRepeat (e :: log) := by
  intro peer msg newer older heq
  cases newer with
  | nil => exact absurd (List.cons.inj heq).1 (he peer msg)
  | cons x newer => exact h peer msg newer older (List.cons.inj heq).2

/-- A peer that has not been told is sent the message. -/
theorem NoRepeat.sent (h : NoRepeat log) {force : Bool} (hp : ¬ Told msg peer log) :
    NoRepeat (.sent peer msg force :: log) := by
  intro peer' msg' newer older heq
  cases newer with
  | nil =>
    obtain ⟨he, rfl⟩ := List.cons.inj heq
    obtain ⟨rfl, rfl, rfl⟩ := Event.sent.inj he
    exact ⟨fun hr => hp (.inl hr), fun hs => hp (.inr ⟨false, hs⟩)⟩
  | cons x newer => exact h peer' msg' newer older (List.cons.inj heq).2

theorem NoRepeat.cleared (h : NoRepeat log) (old : List M) :
    NoRepeat (old.map .cleared ++ log) := by
  induction old with
  | nil => exact h
  | cons m old ih => exact ih.cons fun _ _ => by simp

theorem NoRepeat.sentAll (h : NoRepeat log) {ps : List PeerId} (hps : ps.Nodup) {force : Bool}
    (hnew : ∀ p ∈ ps, ¬ Told msg p log) : NoRepeat (ps.map (.sent · msg force) ++ log) := by
  induction ps with
  | nil => exact h
  | cons p ps ih =>
    obtain ⟨hp, hps⟩ := List.nodup_cons.mp hps
    obtain ⟨hnewp, hnew⟩ := List.forall_mem_cons.mp hnew
    refine (ih hps hnew).sent ?_
    rw [told_sent]
    exact fun h => h.elim (fun hmem => hp hmem.2) hnewp

end Recent

/-! ## The records -/

/-- The loop sends the message to the authenticated peers that have not been told, and notes that. -/
theorem foldl_tell (peers : List (PeerId × Bool)) (told : Std.ExtTreeSet PeerId)
    (sent : List PeerId) :
    ∃ new, (peers.foldl tell (told, sent)).2 = new ++ sent ∧ new.Nodup ∧
      (∀ p, p ∈ new ↔ p ∉ told ∧ (p, true) ∈ peers) ∧
      ∀ p, p ∈ (peers.foldl tell (told, sent)).1 ↔ p ∈ told ∨ p ∈ new := by
  induction peers generalizing told sent with
  | nil => exact ⟨[], rfl, List.nodup_nil, by simp, by simp⟩
  | cons q peers ih =>
    obtain ⟨q, auth⟩ := q
    by_cases hq : q ∉ told ∧ auth = true
    · obtain ⟨new, hsent, hnodup, hnew, htold⟩ := ih (told.insert q) (q :: sent)
      have htell : tell (told, sent) (q, auth) = (told.insert q, q :: sent) := if_pos hq
      obtain ⟨hqtold, rfl⟩ := hq
      have hins (p : PeerId) : p ∈ told.insert q ↔ p = q ∨ p ∈ told := by
        rw [Std.ExtTreeSet.mem_insert, compare_eq_iff_eq, eq_comm]
      have hqnew : q ∉ new := fun h => ((hnew q).mp h).1 ((hins q).mpr (.inl rfl))
      refine ⟨new ++ [q], ?_, ?_, fun p => ?_, fun p => ?_⟩
      · rw [List.foldl_cons, htell, hsent, List.append_assoc]
        rfl
      · exact List.nodup_append.mpr ⟨hnodup, List.pairwise_singleton _ q, fun a ha b hb => by
          rw [List.mem_singleton.mp hb]
          exact fun h => hqnew (h ▸ ha)⟩
      · rw [List.mem_append, List.mem_singleton, hnew, hins, List.mem_cons, Prod.mk.injEq]
        by_cases hpq : p = q
        · simp [hpq, hqtold]
        · simp [hpq]
      · rw [List.foldl_cons, htell, htold, hins, List.mem_append, List.mem_singleton]
        tauto
    · obtain ⟨new, hsent, hnodup, hnew, htold⟩ := ih told sent
      have htell : tell (told, sent) (q, auth) = (told, sent) := if_neg hq
      refine ⟨new, by rw [List.foldl_cons, htell, hsent], hnodup, fun p => ?_, fun p => ?_⟩
      · rw [hnew, List.mem_cons, Prod.mk.injEq]
        refine and_congr_right fun hp => ⟨.inr, fun h => h.resolve_left ?_⟩
        rintro ⟨rfl, rfl⟩
        exact hq ⟨hp, rfl⟩
      · rw [List.foldl_cons, htell, htold]

section Records

variable {M H : Type} [DecidableEq M] [LinearOrder H] {sha256 : M → H} {S : Set M} {s : State M H}
  {msg : M} {peer : PeerId} {f : Floodgate M H} {currentLedgerSeq : Uint32} {force : Bool}

/-- The record of a message has the peers that have sent it or been sent it since it was cleared
last. The messages are in `S`. -/
structure Inv (sha256 : M → H) (S : Set M) (s : State M H) : Prop where
  running : s.floodgate.mShuttingDown = false
  keyed : ∀ index record, s.floodgate.mFloodMap[index]? = some record →
    index = sha256 record.mMessage ∧ record.mMessage ∈ S
  known : ∀ msg ∈ S, ∀ peer, Told msg peer s.log ↔
    ∃ record, s.floodgate.mFloodMap[sha256 msg]? = some record ∧ peer ∈ record.mPeersTold
  noRepeat : NoRepeat s.log

theorem inv_start : Inv sha256 S ({} : State M H) where
  running := rfl
  keyed := fun index record h => by simp at h
  known := fun msg _ peer => by simp [Told, recent]
  noRepeat := fun peer msg newer older h => by simp at h

theorem Inv.message_eq (h : Inv sha256 S s) (hinj : Set.InjOn sha256 S) (hmsg : msg ∈ S)
    {record : FloodRecord M} (hget : s.floodgate.mFloodMap[sha256 msg]? = some record) :
    record.mMessage = msg :=
  have hkeyed := h.keyed _ _ hget
  (hinj hmsg hkeyed.2 hkeyed.1).symm

/-- The floodgate has another record at an index. -/
structure Written (f f' : Floodgate M H) (index : H) (record : FloodRecord M) : Prop where
  running : f'.mShuttingDown = f.mShuttingDown
  get : ∀ k, f'.mFloodMap[k]? = if index = k then some record else f.mFloodMap[k]?

omit [DecidableEq M] in
theorem written_insert (f : Floodgate M H) (index : H) (record : FloodRecord M) :
    Written f { f with mFloodMap := f.mFloodMap.insert index record } index record :=
  ⟨rfl, fun k => by
    rw [Std.ExtTreeMap.getElem?_insert]
    simp only [compare_eq_iff_eq]⟩

/-- The record of one message is written, and what has happened to the others is as it was. -/
theorem Inv.written (h : Inv sha256 S s) (hinj : Set.InjOn sha256 S) (hmsg : msg ∈ S)
    {f' : Floodgate M H} {record : FloodRecord M} {log' : List (Event M)}
    (hw : Written s.floodgate f' (sha256 msg) record) (hmessage : record.mMessage = msg)
    (hself : ∀ peer, Told msg peer log' ↔ peer ∈ record.mPeersTold)
    (hother : ∀ msg' ≠ msg, ∀ peer, Told msg' peer log' ↔ Told msg' peer s.log)
    (hrepeat : NoRepeat log') : Inv sha256 S { s with floodgate := f', log := log' } where
  running := hw.running.trans h.running
  keyed := by
    intro index r hget
    change f'.mFloodMap[index]? = some r at hget
    rw [hw.get] at hget
    by_cases hindex : sha256 msg = index
    · rw [if_pos hindex] at hget
      obtain rfl := Option.some.inj hget
      exact ⟨by rw [hmessage, hindex], hmessage ▸ hmsg⟩
    · rw [if_neg hindex] at hget
      exact h.keyed index r hget
  known := by
    intro msg' hmsg' peer
    change Told msg' peer log' ↔ ∃ r, f'.mFloodMap[sha256 msg']? = some r ∧ _
    rw [hw.get]
    by_cases heq : msg' = msg
    · subst heq
      rw [if_pos rfl, hself]
      exact ⟨fun hp => ⟨record, rfl, hp⟩, fun ⟨r, hr, hp⟩ => Option.some.inj hr ▸ hp⟩
    · rw [if_neg fun hsha => heq (hinj hmsg' hmsg hsha.symm), hother msg' heq, h.known msg' hmsg']
  noRepeat := hrepeat

omit [DecidableEq M] in
/-- A new record has the peer in it; to one that is there the peer is added. -/
theorem addRecord_written (sha256 : M → H) (currentLedgerSeq : Uint32) (msg : M) (peer : PeerId)
    (hrun : f.mShuttingDown = false) :
    ∃ record, Written f (f.addRecord sha256 currentLedgerSeq msg peer).2 (sha256 msg) record ∧
      (f.mFloodMap[sha256 msg]? = none ∧ record = .make msg currentLedgerSeq (some peer) ∨
        ∃ old, f.mFloodMap[sha256 msg]? = some old ∧
          record = { old with mPeersTold := old.mPeersTold.insert peer }) := by
  unfold Floodgate.addRecord
  rw [if_neg (ne_true_of_eq_false hrun)]
  dsimp only
  cases hget : f.mFloodMap[sha256 msg]? with
  | none => exact ⟨_, written_insert f _ _, .inl ⟨rfl, rfl⟩⟩
  | some old => exact ⟨_, written_insert f _ _, .inr ⟨old, rfl, rfl⟩⟩

theorem mem_insert_peer {told : Std.ExtTreeSet PeerId} {p q : PeerId} :
    p ∈ told.insert q ↔ p = q ∨ p ∈ told := by
  rw [Std.ExtTreeSet.mem_insert, compare_eq_iff_eq, eq_comm]

theorem inv_addRecord (h : Inv sha256 S s) (hinj : Set.InjOn sha256 S) (hmsg : msg ∈ S) :
    Inv sha256 S (step sha256 s (.addRecord msg peer currentLedgerSeq)) := by
  obtain ⟨record, hw, hrecord⟩ := addRecord_written sha256 currentLedgerSeq msg peer h.running
  have htold (msg' : M) (p : PeerId) : Told msg' p (.received peer msg :: s.log) ↔
      (p = peer ∧ msg' = msg) ∨ Told msg' p s.log := by
    rw [told_cons]
    simp [eq_comm]
  refine h.written hinj hmsg hw ?_ (fun p => ?_) (fun msg' hne p => ?_) (h.noRepeat.cons ?_)
  · obtain ⟨_, rfl⟩ | ⟨old, hold, rfl⟩ := hrecord
    · rfl
    · exact (h.message_eq hinj hmsg hold :)
  · rw [htold, h.known msg hmsg]
    obtain ⟨hnone, rfl⟩ | ⟨old, hold, rfl⟩ := hrecord
    · simp [hnone, FloodRecord.make, @eq_comm _ p]
    · simp only [hold, mem_insert_peer, Option.some.injEq, exists_eq_left', and_true]
  · rw [htold]
    simp [hne]
  · simp

omit [DecidableEq M] in
/-- A broadcast goes by the record that is there, forced or not, or else by an empty one. -/
theorem broadcast_written (sha256 : M → H) (currentLedgerSeq : Uint32) (peers : List (PeerId × Bool))
    (msg : M) (force : Bool) (hrun : f.mShuttingDown = false) :
    ∃ record : FloodRecord M, ∃ peersTold,
      Written f (f.broadcast sha256 currentLedgerSeq peers msg force).2 (sha256 msg)
        { record with mPeersTold := peersTold } ∧
      (f.mFloodMap[sha256 msg]? = some record ∨
        f.mFloodMap[sha256 msg]? = none ∧ record = .make msg currentLedgerSeq none) ∧
      (f.broadcast sha256 currentLedgerSeq peers msg force).1.Nodup ∧
      (∀ p, p ∈ (f.broadcast sha256 currentLedgerSeq peers msg force).1 ↔
        p ∉ record.mPeersTold ∧ (p, true) ∈ peers) ∧
      ∀ p, p ∈ peersTold ↔ p ∈ record.mPeersTold ∨
        p ∈ (f.broadcast sha256 currentLedgerSeq peers msg force).1 := by
  -- the map with a record for the message, and the record
  have hmap : ∃ map : Table H (FloodRecord M), ∃ record,
      map = (if f.mFloodMap[sha256 msg]? = none ∨ force then
        f.mFloodMap.insertIfNew (sha256 msg) (.make msg currentLedgerSeq none) else f.mFloodMap) ∧
      map[sha256 msg]? = some record ∧
      (∀ k, sha256 msg ≠ k → map[k]? = f.mFloodMap[k]?) ∧
      (f.mFloodMap[sha256 msg]? = some record ∨
        f.mFloodMap[sha256 msg]? = none ∧ record = .make msg currentLedgerSeq none) := by
    cases hold : f.mFloodMap[sha256 msg]? with
    | none =>
      have hnotMem : sha256 msg ∉ f.mFloodMap := fun hmem => by
        simp [Std.ExtTreeMap.mem_iff_isSome_getElem?, hold] at hmem
      refine ⟨_, _, rfl, ?_, fun k hk => ?_, .inr ⟨rfl, rfl⟩⟩
      · rw [if_pos (.inl rfl), Std.ExtTreeMap.getElem?_insertIfNew,
          if_pos ⟨compare_eq_iff_eq.mpr rfl, hnotMem⟩]
      · rw [if_pos (.inl rfl), Std.ExtTreeMap.getElem?_insertIfNew,
          if_neg fun h => hk (compare_eq_iff_eq.mp h.1)]
    | some old =>
      have hmem : sha256 msg ∈ f.mFloodMap := Std.ExtTreeMap.mem_iff_isSome_getElem?.mpr (by simp [hold])
      -- `insert` changes nothing
      have hsame (k : H) : (f.mFloodMap.insertIfNew (sha256 msg)
          (.make msg currentLedgerSeq none))[k]? = f.mFloodMap[k]? := by
        rw [Std.ExtTreeMap.getElem?_insertIfNew, if_neg fun h => h.2 hmem]
      refine ⟨_, old, rfl, ?_, fun k _ => ?_, .inl rfl⟩
      · split
        · rw [hsame, hold]
        · exact hold
      · split
        · exact hsame k
        · rfl
  obtain ⟨map, record, hmap, hget, hother, hrecord⟩ := hmap
  obtain ⟨new, hsent, hnodup, hnew, htold⟩ := foldl_tell peers record.mPeersTold []
  rw [List.append_nil] at hsent
  unfold Floodgate.broadcast
  rw [if_neg (ne_true_of_eq_false hrun)]
  dsimp only
  rw [← hmap, hget]
  dsimp only
  rw [hsent]
  refine ⟨record, _, ⟨rfl, fun k => ?_⟩, hrecord, hnodup, hnew, htold⟩
  rw [Std.ExtTreeMap.getElem?_insert]
  by_cases hk : sha256 msg = k
  · simp [hk]
  · simp [hk, hother k hk]

theorem inv_broadcast (h : Inv sha256 S s) (hinj : Set.InjOn sha256 S) (hmsg : msg ∈ S) :
    Inv sha256 S (step sha256 s (.broadcast msg force currentLedgerSeq)) := by
  obtain ⟨record, peersTold, hw, hrecord, hnodup, hsent, htold⟩ := broadcast_written
    sha256 currentLedgerSeq s.peers msg force h.running
  have hknown (p : PeerId) : Told msg p s.log ↔ p ∈ record.mPeersTold := by
    rw [h.known msg hmsg]
    obtain hold | ⟨hnone, rfl⟩ := hrecord
    · simp [hold]
    · simp [hnone, FloodRecord.make]
  refine h.written hinj hmsg hw ?_ (fun p => ?_) (fun msg' hne p => ?_) (h.noRepeat.sentAll hnodup ?_)
  · obtain hold | ⟨_, rfl⟩ := hrecord
    · exact (h.message_eq hinj hmsg hold :)
    · rfl
  · rw [told_sent, hknown, htold]
    simp [or_comm]
  · rw [told_sent]
    simp [hne]
  · intro p hp
    rw [hknown]
    exact ((hsent p).mp hp).1

theorem inv_clearBelow (h : Inv sha256 S s) (hinj : Set.InjOn sha256 S) (currentLedger : Uint32) :
    Inv sha256 S (step sha256 s (.clearBelow currentLedger)) := by
  have hget (k : H) : (s.floodgate.clearBelow currentLedger).mFloodMap[k]? =
      s.floodgate.mFloodMap[k]?.filter fun r => !r.isOld currentLedger :=
    Std.ExtTreeMap.getElem?_filter'
  have hold (msg : M) (hmsg : msg ∈ S) :
      msg ∈ ((s.floodgate.mFloodMap.toList.filter fun i => i.2.isOld currentLedger).map
        fun i => i.2.mMessage) ↔
      ∃ r, s.floodgate.mFloodMap[sha256 msg]? = some r ∧ r.isOld currentLedger = true := by
    simp only [List.mem_map, List.mem_filter, Prod.exists,
      Std.ExtTreeMap.mem_toList_iff_getElem?_eq_some]
    constructor
    · rintro ⟨k, r, ⟨hr, hisOld⟩, rfl⟩
      exact ⟨r, (h.keyed k r hr).1 ▸ hr, hisOld⟩
    · rintro ⟨r, hr, hisOld⟩
      exact ⟨_, r, ⟨hr, hisOld⟩, h.message_eq hinj hmsg hr⟩
  have hlog : (step sha256 s (.clearBelow currentLedger)).log =
      ((s.floodgate.mFloodMap.toList.filter fun i => i.2.isOld currentLedger).map
        fun i => i.2.mMessage).map .cleared ++ s.log := by
    rw [List.map_map]
    rfl
  refine ⟨h.running, fun k r hr => ?_, fun msg hmsg p => ?_, ?_⟩
  · change (s.floodgate.clearBelow currentLedger).mFloodMap[k]? = some r at hr
    rw [hget, Option.filter_eq_some_iff] at hr
    exact h.keyed k r hr.1
  · change _ ↔ ∃ r, (s.floodgate.clearBelow currentLedger).mFloodMap[sha256 msg]? = some r ∧ _
    rw [hlog, told_cleared, hold msg hmsg, h.known msg hmsg, hget]
    cases s.floodgate.mFloodMap[sha256 msg]? with
    | none => simp
    | some r => simp [Option.filter_eq_some_iff, and_assoc]
  · rw [hlog]
    exact h.noRepeat.cleared _

/-- One step keeps the records right. -/
theorem inv_step (h : Inv sha256 S s) (hinj : Set.InjOn sha256 S) {op : Op M}
    (hop : ∀ msg, op.message = some msg → msg ∈ S) : Inv sha256 S (step sha256 s op) := by
  cases op with
  | addRecord msg peer currentLedgerSeq => exact inv_addRecord h hinj (hop msg rfl)
  | broadcast msg force currentLedgerSeq => exact inv_broadcast h hinj (hop msg rfl)
  | clearBelow currentLedger => exact inv_clearBelow h hinj currentLedger
  | connect peer => exact ⟨h.running, h.keyed, h.known, h.noRepeat⟩
  | authenticate peer => exact ⟨h.running, h.keyed, h.known, h.noRepeat⟩
  | disconnect peer => exact ⟨h.running, h.keyed, h.known, h.noRepeat⟩

/-- In every run the records are right. -/
theorem inv_run (hinj : Set.InjOn sha256 S) {ops : List (Op M)}
    (hops : ∀ op ∈ ops, ∀ msg, op.message = some msg → msg ∈ S) :
    Inv sha256 S (run sha256 ops) := by
  induction ops using List.reverseRecOn with
  | nil => exact inv_start
  | append_singleton ops op ih =>
    obtain ⟨hops, hop⟩ := List.forall_mem_append.mp hops
    rw [run, List.foldl_append]
    exact inv_step (ih hops) hinj (hop op (List.mem_singleton_self op))

/-! ## Broadcasts -/

/-- All authenticated peers are told. -/
theorem told_broadcast (h : Inv sha256 S s) (hinj : Set.InjOn sha256 S) (hmsg : msg ∈ S)
    (hpeer : (peer, true) ∈ s.peers) :
    Told msg peer (step sha256 s (.broadcast msg force currentLedgerSeq)).log := by
  obtain ⟨record, peersTold, hw, -, -, hsent, htold⟩ := broadcast_written sha256
    currentLedgerSeq s.peers msg force h.running
  rw [(inv_broadcast h hinj hmsg).known msg hmsg]
  refine ⟨_, (hw.get _).trans (if_pos rfl), (htold peer).mpr ?_⟩
  by_cases hp : peer ∈ record.mPeersTold
  · exact .inl hp
  · exact .inr ((hsent peer).mpr ⟨hp, hpeer⟩)

omit [DecidableEq M] in
/-- An authenticated peer is sent the message just if it is in no record of it. -/
theorem sent_broadcast_iff (hrun : s.floodgate.mShuttingDown = false)
    (hpeer : (peer, true) ∈ s.peers) :
    (∃ sent, (step sha256 s (.broadcast msg force currentLedgerSeq)).log = sent ++ s.log ∧
      .sent peer msg force ∈ sent) ↔
    ∀ record, s.floodgate.mFloodMap[sha256 msg]? = some record → peer ∉ record.mPeersTold := by
  obtain ⟨record, peersTold, -, hrecord, -, hsent, -⟩ := broadcast_written sha256
    currentLedgerSeq s.peers msg force hrun
  have hmem : (∃ sent, (step sha256 s (.broadcast msg force currentLedgerSeq)).log = sent ++ s.log ∧
      .sent peer msg force ∈ sent) ↔ peer ∉ record.mPeersTold := by
    constructor
    · rintro ⟨sent, hlog, hmem⟩
      obtain rfl := List.append_cancel_right hlog
      obtain ⟨p, hp, heq⟩ := List.mem_map.mp hmem
      obtain ⟨rfl, -⟩ := Event.sent.inj heq
      exact ((hsent p).mp hp).1
    · intro hp
      exact ⟨_, rfl, List.mem_map.mpr ⟨peer, (hsent peer).mpr ⟨hp, hpeer⟩, rfl⟩⟩
  rw [hmem]
  obtain hold | ⟨hnone, rfl⟩ := hrecord
  · simp [hold]
  · simp [hnone, FloodRecord.make]

end Records

/-! ## The result -/

section Result

variable {M H : Type} [DecidableEq M] [LinearOrder H] {sha256 : M → H}

/-- Messages are sent where they are needed, but a forced broadcast reaches everybody again only if
nobody is in a record of the message. -/
theorem lawful_iff (ops : List (Op M))
    (hinj : Set.InjOn sha256 {msg | ∃ op ∈ ops, op.message = some msg}) :
    Lawful sha256 ops ↔ ForcedUntold sha256 ops := by
  have hops : ∀ op ∈ ops, ∀ msg, op.message = some msg →
      msg ∈ {msg | ∃ op ∈ ops, op.message = some msg} := fun op hop msg hmsg => ⟨op, hop, hmsg⟩
  generalize {msg | ∃ op ∈ ops, op.message = some msg} = S at hinj hops
  have hpre {pre : List (Op M)} {op : Op M} {post : List (Op M)} (heq : ops = pre ++ op :: post) :
      Inv sha256 S (run sha256 pre) := inv_run hinj fun o ho => hops o (by simp [heq, ho])
  constructor
  · intro hlaw pre msg currentLedgerSeq post heq peer hpeer
    have hagain := (hlaw.2 pre msg true currentLedgerSeq post heq).again rfl peer hpeer
    exact (sent_broadcast_iff (hpre heq).running hpeer).mp hagain
  · intro hforced
    refine ⟨(inv_run hinj hops).noRepeat, fun pre msg force currentLedgerSeq post heq => ?_⟩
    have hmsg : msg ∈ S := hops (.broadcast msg force currentLedgerSeq) (by simp [heq]) msg rfl
    refine ⟨fun peer hpeer => told_broadcast (hpre heq) hinj hmsg hpeer, ?_⟩
    rintro rfl peer hpeer
    exact (sent_broadcast_iff (hpre heq).running hpeer).mpr
      (hforced pre msg currentLedgerSeq post heq peer hpeer)

/-- Peer 2 has sent us the message and gone. -/
theorem lawful_iff_example : Lawful (M := ℕ) id
    [.connect 1, .authenticate 1, .addRecord 7 2 5, .broadcast 7 true 5] := by
  refine (lawful_iff _ Function.injective_id.injOn).mpr fun pre msg seq post heq => ?_
  obtain _ | ⟨_, _ | ⟨_, _ | ⟨_, _ | ⟨_, pre⟩⟩⟩⟩ := pre <;> simp at heq
  obtain ⟨rfl, rfl, rfl, ⟨rfl, rfl⟩, rfl⟩ := heq
  intro peer hpeer record hrecord hmem
  have hone : peer = 1 := by simpa [run, step] using hpeer
  have htwo : record = .make 7 5 (some 2) := by
    simpa [run, step, Floodgate.addRecord, @eq_comm _ record] using hrecord
  subst hone htwo
  simp [FloodRecord.make] at hmem

/-- The second time the message is rebroadcast to nobody. -/
theorem not_lawful_rebroadcast : ¬ Lawful (M := ℕ) id
    ([.connect 1, .authenticate 1] ++ rebroadcast false [7] 5 ++ rebroadcast false [7] 6) := by
  intro h
  let s : State ℕ ℕ := run id ([.connect 1, .authenticate 1] ++ rebroadcast false [7] 5)
  obtain ⟨sent, hlog, hsent⟩ := (h.2 _ 7 true 6 [] rfl).again rfl 1
    (show (1, true) ∈ s.peers by decide +kernel)
  have hsame : (step id s (.broadcast 7 true 6)).log = s.log := by decide +kernel
  rw [List.self_eq_append_left.mp (hsame.symm.trans hlog)] at hsent
  exact List.not_mem_nil hsent

end Result

end SmartCore.Overlay.Flood
