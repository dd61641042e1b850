import Mathlib.Data.List.Count
import SmartCore.Work.Work

/-!
# A work runs once

At most one run between two completions, not before the children have succeeded, and not again once
the work is done: `RunsOnce` says so about what has happened.

The code does not keep that. `advance` posts a run for a work in WORK_PENDING, and the work stays in
WORK_PENDING until the run is executed. Another `advance` in between, for a sibling that completes
or for another tree, posts a second run (`advanced_twice`).

Main result: `runs_once`. Works run once as long as `advance` never gets to a pending work for which
something is posted already, no child is added to a work while a run of it is posted, and
`onSuccess` only asks to keep running when all children have succeeded.
-/

namespace SmartCore.Works

/-! ## What a run has to keep -/

def Entry.isOnRun (w : ℕ) : Entry → Bool
  | .onRun v _ => decide (v = w)
  | _ => false

/-- Does a completion belong to it? -/
def Entry.completes (w : ℕ) : Entry → Bool
  | .onRun v _ | .scheduleFailure v => decide (v = w)
  | _ => false

namespace WorkManager

variable (m : WorkManager)

/-- Works run once, by what has happened so far. -/
structure RunsOnce : Prop where
  /-- every run that is scheduled is entered once, or has still to be -/
  counted : ∀ w, (m.work w).alive = true →
    m.log.count (.scheduleRun w) = m.log.countP (Entry.isOnRun w) + m.posted.count (.run w)
  scheduled : ∀ w, Separated (· = .scheduleRun w) (· = .complete w) m.log
  entered : ∀ w, Separated (Entry.isOnRun w · = true) (· = .complete w) m.log
  ready : ∀ w ready, .onRun w ready ∈ m.log → ready = true
  /-- there is one completion for a run, and one for a failure that `advance` schedules -/
  completed : ∀ w, Separated (· = .complete w) (Entry.completes w · = true) m.log
  done : ∀ pre w old new post, m.log = pre ++ .changed w old new :: post → old.isDone = true →
    pre.getLast? = some (.reset w)

/-- The pending works that `advance` gets to. -/
def reached : ℕ → ℕ → List ℕ
  | 0, _ => []
  | n + 1, w =>
    if (m.work w).mState ≠ .WORK_PENDING then []
    else w :: (m.work w).mChildren.flatMap fun c => reached n c.2

/-- `advance` finds nothing posted. -/
def Quiet (w : ℕ) : Prop := ∀ v ∈ m.reached m.size w, ∀ p ∈ m.posted, p.work ≠ v

def Op.Careful : Op → Prop
  | .addWork (some parent) _ _ _ => .run parent ∉ m.posted
  | .advanceChildren => ∀ c ∈ m.mChildren, m.Quiet c.2
  | _ => True

def OpsCareful : List Op → WorkManager → Prop
  | [], _ => True
  | o :: os, m => Op.Careful m o ∧ ∀ m' ∈ m.op o, OpsCareful os m'

def NotifyCareful (w : ℕ) (onNotify : List Op) : Prop :=
  match (m.work w).mParent with
  | some parent => (m.work parent).alive = true →
    OpsCareful onNotify m ∧ ∀ m' ∈ ops onNotify m, m'.Quiet parent
  | none => (m.work w).mUniqueName ∈ m.mChildren.map Prod.fst → ∀ c ∈ m.mChildren, m.Quiet c.2

def GoOnCareful (w : ℕ) (cb : Callbacks) : Prop :=
  match (m.work w).mState with
  | .WORK_SUCCESS => m.NotifyCareful w cb.onNotify
  | .WORK_FAILURE_RETRY => OpsCareful cb.onFailure m
  | .WORK_FAILURE_RAISE =>
    OpsCareful cb.onFailure m ∧ ∀ m' ∈ ops cb.onFailure m, m'.NotifyCareful w cb.onNotify
  | .WORK_PENDING => m.Quiet w
  | .WORK_RUNNING => m.allChildrenSuccessful w = true

/-- `advance` never gets to a pending work for which something is posted, no child is added to a
work while a run of it is posted, and `onSuccess` asks to keep running only when all children have
succeeded. -/
def Careful : Action → Prop
  | .run w onRun _ => (m.work w).alive = true → OpsCareful onRun (m.enter w)
  | .complete w ec cb => (m.work w).alive = true →
    (ec = false → OpsCareful cb.onSuccess (m.completing w ec)) ∧
      ∀ m' ∈ m.completed w ec cb, m'.GoOnCareful w cb
  | .retry w onReset => OpsCareful onReset (m.retrying w) ∧
    ∀ m' ∈ ops onReset (m.retrying w), m'.Quiet w
  | .call os => OpsCareful os m
  | .destroy _ => True

end WorkManager

/-! ## The log -/

/-- What is always true of the log. -/
structure Law (log : List Entry) : Prop where
  scheduled : ∀ w, Separated (· = .scheduleRun w) (· = .complete w) log
  entered : ∀ w, Separated (Entry.isOnRun w · = true) (· = .complete w) log
  ready : ∀ w ready, .onRun w ready ∈ log → ready = true
  completed : ∀ w, Separated (· = .complete w) (Entry.completes w · = true) log
  changed : ∀ w old new, .changed w old new ∈ log → old.isDone = false

/-- What an entry needs. -/
def Allowed (log : List Entry) : Entry → Prop
  | .scheduleRun w => Since (· = .scheduleRun w) (· = .complete w) log
  | .onRun w ready => ready = true ∧ Since (Entry.isOnRun w · = true) (· = .complete w) log
  | .complete w => Since (· = .complete w) (Entry.completes w · = true) log
  | .changed _ old _ => old.isDone = false
  | .reset _ | .scheduleFailure _ => True

theorem Entry.work_of_isOnRun {w : ℕ} {e : Entry} (h : e.isOnRun w = true) : e.work = w := by
  cases e with
  | onRun v ready => exact of_decide_eq_true h
  | _ => cases h

theorem Law.nil : Law [] :=
  ⟨fun _ => .nil, fun _ => .nil, by simp, fun _ => .nil, by simp⟩

theorem Law.snoc {log : List Entry} {e : Entry} (h : Law log) (he : Allowed log e) :
    Law (log ++ [e]) where
  scheduled w := (h.scheduled w).snoc fun heq => by
    subst heq
    exact he
  entered w := (h.entered w).snoc fun hon => by
    cases e with
    | onRun v ready =>
      obtain rfl : v = w := of_decide_eq_true hon
      exact he.2
    | _ => cases hon
  ready w ready hmem := by
    rcases List.mem_append.mp hmem with hmem | hmem
    · exact h.ready w ready hmem
    · obtain rfl := List.mem_singleton.mp hmem
      exact he.1
  completed w := (h.completed w).snoc fun heq => by
    subst heq
    exact he
  changed w old new hmem := by
    rcases List.mem_append.mp hmem with hmem | hmem
    · exact h.changed w old new hmem
    · obtain rfl := List.mem_singleton.mp hmem
      exact he

namespace WorkManager

variable {m m' : WorkManager} {w v : ℕ}

/-- The handlers of a work. -/
def handlers (m : WorkManager) (w : ℕ) : List Posted := m.posted.filter fun p => p.work = w

theorem mem_handlers {p : Posted} : p ∈ m.handlers w ↔ p ∈ m.posted ∧ p.work = w := by
  simp [handlers, List.mem_filter]

theorem run_mem_handlers : .run w ∈ m.handlers w ↔ .run w ∈ m.posted := by
  simp [mem_handlers, Posted.work]

theorem handlers_eq_nil : m.handlers w = [] ↔ ∀ p ∈ m.posted, p.work ≠ w := by
  simp [handlers, List.filter_eq_nil_iff]

/-- What is always true of a work that is alive. -/
structure Fine (m : WorkManager) (w : ℕ) : Prop where
  timer : (m.work w).mRetryTimer = true → (m.work w).mState = .WORK_FAILURE_RETRY
  load : (m.handlers w).length ≤ 1
  resting : (m.work w).mState ≠ .WORK_PENDING → (m.work w).mState ≠ .WORK_RUNNING →
    m.handlers w = []
  failing : (m.work w).mState = .WORK_PENDING → ∀ ec, .complete w ec ∈ m.handlers w → ec = true
  ready : .run w ∈ m.handlers w → ∀ c ∈ (m.work w).mChildren,
    (m.work c.2).mState = .WORK_SUCCESS
  counted : m.log.count (.scheduleRun w) =
    m.log.countP (Entry.isOnRun w) + (m.handlers w).count (.run w)
  scheduled : (m.work w).mState ≠ .WORK_RUNNING → .run w ∉ m.handlers w →
    Since (· = .scheduleRun w) (· = .complete w) m.log
  entered : (m.work w).mState ≠ .WORK_RUNNING ∨ .run w ∈ m.handlers w →
    Since (Entry.isOnRun w · = true) (· = .complete w) m.log
  completed : ∀ ec, .complete w ec ∈ m.handlers w →
    Since (· = .complete w) (Entry.completes w · = true) m.log

/-- The works are a forest. -/
structure Tree (m : WorkManager) : Prop where
  size : ∀ w, (m.work w).alive = true → w < m.size
  new : ∀ w, m.size ≤ w → m.handlers w = [] ∧ ∀ e ∈ m.log, e.work ≠ w
  inside : ∀ p, ∀ c ∈ m.childrenOf p, c.2 < m.size
  parent : ∀ p, ∀ c ∈ m.childrenOf p, (m.work c.2).mParent = p
  lt : ∀ p w, (m.work w).mParent = some p → p < w
  nodup : ∀ p, ((m.childrenOf p).map Prod.snd).Nodup
  living : ∀ p, m.isAlive p = true → ∀ c ∈ m.childrenOf p, (m.work c.2).alive = true

structure Ok (m : WorkManager) : Prop where
  tree : m.Tree
  fine : ∀ w, (m.work w).alive = true → m.Fine w
  law : Law m.log

/-! ## What does not concern a work -/

/-- Nothing has happened to the work. -/
structure Same (m m' : WorkManager) (w : ℕ) : Prop where
  state : (m'.work w).mState = (m.work w).mState
  timer : (m'.work w).mRetryTimer = (m.work w).mRetryTimer
  alive : (m'.work w).alive = (m.work w).alive
  parent : (m'.work w).mParent = (m.work w).mParent
  handlers : m'.handlers w = m.handlers w
  log : ∃ es, m'.log = m.log ++ es ∧ ∀ e ∈ es, e.work ≠ w

theorem Same.refl (m : WorkManager) (w : ℕ) : m.Same m w :=
  ⟨rfl, rfl, rfl, rfl, rfl, [], by simp⟩

theorem Same.trans {m'' : WorkManager} (h : m.Same m' w) (h' : m'.Same m'' w) : m.Same m'' w := by
  obtain ⟨es, hes, hw⟩ := h.log
  obtain ⟨es', hes', hw'⟩ := h'.log
  refine ⟨h'.state.trans h.state, h'.timer.trans h.timer, h'.alive.trans h.alive,
    h'.parent.trans h.parent, h'.handlers.trans h.handlers, es ++ es', ?_, fun e he => ?_⟩
  · rw [hes', hes, List.append_assoc]
  · rcases List.mem_append.mp he with he | he
    · exact hw e he
    · exact hw' e he

/-- Entries about other works. -/
theorem since_append {p q : Entry → Prop} {l es : List Entry} (hp : ∀ e, p e → e.work = w)
    (h : Since p q l) (hes : ∀ e ∈ es, e.work ≠ w) : Since p q (l ++ es) := by
  induction es using List.reverseRecOn with
  | nil => simpa using h
  | append_singleton es e ih =>
    rw [← List.append_assoc]
    refine Since.snoc (ih fun e' he' => hes e' (by simp [he'])) fun hpe => ?_
    exact hes e (by simp) (hp e hpe)

theorem Same.since {p q : Entry → Prop} (h : m.Same m' w) (hp : ∀ e, p e → e.work = w)
    (hs : Since p q m.log) : Since p q m'.log := by
  obtain ⟨es, hes, hw⟩ := h.log
  rw [hes]
  exact since_append hp hs hw

theorem Same.counts (h : m.Same m' w) :
    m'.log.count (.scheduleRun w) = m.log.count (.scheduleRun w) ∧
      m'.log.countP (Entry.isOnRun w) = m.log.countP (Entry.isOnRun w) := by
  obtain ⟨es, hes, hw⟩ := h.log
  have hcount : es.count (.scheduleRun w) = 0 :=
    List.count_eq_zero.mpr fun hmem => hw _ hmem rfl
  have hcountP : es.countP (Entry.isOnRun w) = 0 :=
    List.countP_eq_zero.mpr fun e he hon => hw e he (Entry.work_of_isOnRun hon)
  rw [hes, List.count_append, List.countP_append, hcount, hcountP]
  exact ⟨rfl, rfl⟩

theorem work_scheduleRun (e : Entry) (h : e = .scheduleRun w) : e.work = w := by
  rw [h]
  rfl

theorem work_complete (e : Entry) (h : e = .complete w) : e.work = w := by
  rw [h]
  rfl

theorem Fine.same (h : m.Fine w) (hsame : m.Same m' w)
    (hready : .run w ∈ m.handlers w → ∀ c ∈ (m'.work w).mChildren,
      (m'.work c.2).mState = .WORK_SUCCESS) : m'.Fine w := by
  obtain ⟨hcount, hcountP⟩ := hsame.counts
  refine ⟨?_, ?_, ?_, ?_, ?_, ?_, ?_, ?_, ?_⟩
  · rw [hsame.timer, hsame.state]
    exact h.timer
  · rw [hsame.handlers]
    exact h.load
  · rw [hsame.handlers, hsame.state]
    exact h.resting
  · rw [hsame.handlers, hsame.state]
    exact h.failing
  · rw [hsame.handlers]
    exact hready
  · rw [hsame.handlers, hcount, hcountP]
    exact h.counted
  · rw [hsame.handlers, hsame.state]
    exact fun hs hr => hsame.since work_scheduleRun (h.scheduled hs hr)
  · rw [hsame.handlers, hsame.state]
    exact fun hs => hsame.since (fun _ => Entry.work_of_isOnRun) (h.entered hs)
  · rw [hsame.handlers]
    exact fun ec hec => hsame.since work_complete (h.completed ec hec)

/-! ## What concerns a single work -/

/-- Something has happened to `w`, and to no other work. The tree has not changed. -/
structure Touches (m m' : WorkManager) (w : ℕ) : Prop where
  size : m'.size = m.size
  roots : m'.mChildren = m.mChildren
  others : ∀ v, v ≠ w → m'.work v = m.work v
  parent : (m'.work w).mParent = (m.work w).mParent
  children : (m'.work w).mChildren = (m.work w).mChildren
  alive : (m'.work w).alive = (m.work w).alive
  handlers : ∀ v, v ≠ w → m'.handlers v = m.handlers v
  log : ∃ es, m'.log = m.log ++ es ∧ ∀ e ∈ es, e.work = w

namespace Touches

theorem trans {m'' : WorkManager} (h : m.Touches m' w) (h' : m'.Touches m'' w) :
    m.Touches m'' w := by
  obtain ⟨es, hes, hw⟩ := h.log
  obtain ⟨es', hes', hw'⟩ := h'.log
  refine ⟨h'.size.trans h.size, h'.roots.trans h.roots,
    fun v hv => (h'.others v hv).trans (h.others v hv), h'.parent.trans h.parent,
    h'.children.trans h.children, h'.alive.trans h.alive,
    fun v hv => (h'.handlers v hv).trans (h.handlers v hv), es ++ es', ?_, fun e he => ?_⟩
  · rw [hes', hes, List.append_assoc]
  · rcases List.mem_append.mp he with he | he
    · exact hw e he
    · exact hw' e he

theorem record {e : Entry} (he : e.work = w) : m.Touches (m.record e) w :=
  ⟨rfl, rfl, fun _ _ => rfl, rfl, rfl, rfl, fun _ _ => rfl, [e], rfl, by simpa using he⟩

theorem modifyWork {f : Work → Work} (hparent : (f (m.work w)).mParent = (m.work w).mParent)
    (hchildren : (f (m.work w)).mChildren = (m.work w).mChildren)
    (halive : (f (m.work w)).alive = (m.work w).alive) : m.Touches (m.modifyWork w f) w where
  size := rfl
  roots := rfl
  others v hv := Function.update_of_ne hv _ _
  parent := by simpa [WorkManager.modifyWork] using hparent
  children := by simpa [WorkManager.modifyWork] using hchildren
  alive := by simpa [WorkManager.modifyWork] using halive
  handlers _ _ := rfl
  log := ⟨[], by simp [WorkManager.modifyWork]⟩

theorem setState {st : State} : m.Touches (m.setState w st) w := by
  simp only [WorkManager.setState]
  split_ifs
  · exact (record rfl).trans (modifyWork rfl rfl rfl)
  · exact ⟨rfl, rfl, fun _ _ => rfl, rfl, rfl, rfl, fun _ _ => rfl, [], by simp⟩

theorem erase {p : Posted} (hp : p.work = w) :
    m.Touches { m with posted := m.posted.erase p } w where
  size := rfl
  roots := rfl
  others _ _ := rfl
  parent := rfl
  children := rfl
  alive := rfl
  handlers v hv := by
    simp only [WorkManager.handlers]
    rw [← List.erase_filter, List.erase_of_not_mem]
    intro hmem
    exact hv (of_decide_eq_true (List.mem_filter.mp hmem).2 ▸ hp.symm ▸ rfl)
  log := ⟨[], by simp⟩

theorem post {ps : List Posted} (hps : ∀ p ∈ ps, p.work = w) :
    m.Touches { m with posted := m.posted ++ ps } w where
  size := rfl
  roots := rfl
  others _ _ := rfl
  parent := rfl
  children := rfl
  alive := rfl
  handlers v hv := by
    have hnil : ps.filter (fun p => p.work = v) = [] := by
      rw [List.filter_eq_nil_iff]
      intro p hp
      rw [hps p hp]
      simpa using hv.symm
    simp only [WorkManager.handlers, List.filter_append]
    rw [hnil, List.append_nil]
  log := ⟨[], by simp⟩

theorem same (h : m.Touches m' w) (hv : v ≠ w) : m.Same m' v := by
  obtain ⟨es, hes, hw⟩ := h.log
  have heq := h.others v hv
  refine ⟨by rw [heq], by rw [heq], by rw [heq], by rw [heq], h.handlers v hv, es, hes,
    fun e he => ?_⟩
  rw [hw e he]
  exact hv.symm

theorem alive_eq (h : m.Touches m' w) (v : ℕ) : (m'.work v).alive = (m.work v).alive := by
  by_cases hv : v = w
  · rw [hv, h.alive]
  · rw [h.others v hv]

theorem parent_eq (h : m.Touches m' w) (v : ℕ) : (m'.work v).mParent = (m.work v).mParent := by
  by_cases hv : v = w
  · rw [hv, h.parent]
  · rw [h.others v hv]

theorem childrenOf_eq (h : m.Touches m' w) (p : Option ℕ) : m'.childrenOf p = m.childrenOf p := by
  cases p with
  | none => exact h.roots
  | some v =>
    by_cases hv : v = w
    · simp only [childrenOf]
      rw [hv, h.children]
    · simp only [childrenOf]
      rw [h.others v hv]

theorem tree (h : m.Touches m' w) (ht : m.Tree) (hw : w < m.size) : m'.Tree where
  size v hv := by
    rw [h.size]
    exact ht.size v (h.alive_eq v ▸ hv)
  new v hv := by
    rw [h.size] at hv
    have hne : v ≠ w := by omega
    obtain ⟨hnil, hlog⟩ := ht.new v hv
    obtain ⟨es, hes, hwork⟩ := h.log
    refine ⟨(h.handlers v hne).trans hnil, fun e he => ?_⟩
    rw [hes] at he
    rcases List.mem_append.mp he with he | he
    · exact hlog e he
    · rw [hwork e he]
      exact hne.symm
  inside p c hc := by
    rw [h.childrenOf_eq] at hc
    rw [h.size]
    exact ht.inside p c hc
  parent p c hc := by
    rw [h.childrenOf_eq] at hc
    rw [h.parent_eq]
    exact ht.parent p c hc
  lt p v hv := ht.lt p v (h.parent_eq v ▸ hv)
  nodup p := by
    rw [h.childrenOf_eq]
    exact ht.nodup p
  living p hp c hc := by
    rw [h.childrenOf_eq] at hc
    rw [h.alive_eq]
    refine ht.living p ?_ c hc
    cases p with
    | none => rfl
    | some v => exact (h.alive_eq v).symm.trans hp

/-- The rest is only about `w`. A child that has succeeded stays so. -/
theorem ok (h : m.Touches m' w) (hok : m.Ok) (hw : w < m.size)
    (hsuccess : (m.work w).mState = .WORK_SUCCESS → (m'.work w).mState = .WORK_SUCCESS)
    (hfine : (m.work w).alive = true → m'.Fine w) (hlaw : Law m'.log) : m'.Ok := by
  refine ⟨h.tree hok.tree hw, fun v hv => ?_, hlaw⟩
  rw [h.alive_eq] at hv
  by_cases hvw : v = w
  · rw [hvw]
    exact hfine (hvw ▸ hv)
  · refine (hok.fine v hv).same (h.same hvw) fun hrun c hc => ?_
    rw [h.others v hvw] at hc
    have hc' := (hok.fine v hv).ready hrun c hc
    by_cases hcw : c.2 = w
    · rw [hcw] at hc' ⊢
      exact hsuccess hc'
    · rw [h.others c.2 hcw]
      exact hc'

end Touches

/-! ## Posting -/

/-- The last run has completed, and nothing is posted. -/
structure Settled (m : WorkManager) (w : ℕ) : Prop where
  alive : (m.work w).alive = true
  idle : m.handlers w = []
  counted : m.log.count (.scheduleRun w) = m.log.countP (Entry.isOnRun w)
  scheduled : Since (· = .scheduleRun w) (· = .complete w) m.log
  entered : Since (Entry.isOnRun w · = true) (· = .complete w) m.log

theorem Settled.same (h : m.Settled w) (hsame : m.Same m' w) : m'.Settled w where
  alive := hsame.alive.trans h.alive
  idle := hsame.handlers.trans h.idle
  counted := by
    obtain ⟨hcount, hcountP⟩ := hsame.counts
    rw [hcount, hcountP, h.counted]
  scheduled := hsame.since work_scheduleRun h.scheduled
  entered := hsame.since (fun _ => Entry.work_of_isOnRun) h.entered

/-- A work for which nothing is posted. -/
theorem Settled.fine (h : m.Settled w)
    (htimer : (m.work w).mRetryTimer = true → (m.work w).mState = .WORK_FAILURE_RETRY) :
    m.Fine w where
  timer := htimer
  load := by simp [h.idle]
  resting _ _ := h.idle
  failing := by simp [h.idle]
  ready := by simp [h.idle]
  counted := by simp [h.idle, h.counted]
  scheduled _ _ := h.scheduled
  entered _ := h.entered
  completed := by simp [h.idle]

theorem Fine.settled (h : m.Fine w) (halive : (m.work w).alive = true)
    (hstate : (m.work w).mState ≠ .WORK_RUNNING) (hidle : m.handlers w = []) : m.Settled w where
  alive := halive
  idle := hidle
  counted := by simpa [hidle] using h.counted
  scheduled := h.scheduled hstate (by simp [hidle])
  entered := h.entered (Or.inl hstate)

/-- What `advance` posts a handler for. -/
def Due (m : WorkManager) : Posted → Prop
  | .run w => m.allChildrenSuccessful w = true
  | .complete _ ec => ec = true

/-- A handler that may be posted. -/
structure Postable (m : WorkManager) (p : Posted) : Prop where
  settled : m.Settled p.work
  state : (m.work p.work).mState = .WORK_PENDING ∨ (m.work p.work).mState = .WORK_RUNNING
  due : m.Due p

theorem allChildrenSuccessful_iff : m.allChildrenSuccessful w = true ↔
    ∀ c ∈ (m.work w).mChildren, (m.work c.2).mState = .WORK_SUCCESS := by
  simp only [allChildrenSuccessful, List.all_eq_true, decide_eq_true_eq]

theorem handlers_schedule {p : Posted} (h : m.handlers p.work = []) :
    (m.schedule [p]).handlers p.work = [p] := by
  simp only [handlers, schedule, List.filter_append] at h ⊢
  rw [h]
  simp

theorem entry_work (p : Posted) : p.entry.work = p.work := by
  cases p <;> rfl

theorem touches_schedule (p : Posted) : m.Touches (m.schedule [p]) p.work := by
  have hpost : m.Touches { m with posted := m.posted ++ [p] } p.work := Touches.post (by simp)
  exact hpost.trans (Touches.record (entry_work p))

theorem Fine.timer_false (h : m.Fine w)
    (hstate : (m.work w).mState = .WORK_PENDING ∨ (m.work w).mState = .WORK_RUNNING) :
    (m.work w).mRetryTimer = false := by
  by_contra htimer
  have hretry := h.timer (by simpa using htimer)
  rcases hstate with hstate | hstate <;> simp [hretry] at hstate

theorem Fine.schedule {p : Posted} (h : m.Fine p.work) (hp : m.Postable p) :
    (m.schedule [p]).Fine p.work := by
  have hhandlers := handlers_schedule hp.settled.idle
  have hcounted := h.counted
  rw [hp.settled.idle, List.count_nil, Nat.add_zero] at hcounted
  have htimer : ((m.schedule [p]).work p.work).mRetryTimer = false := h.timer_false hp.state
  have hresting (hne : (m.work p.work).mState ≠ .WORK_PENDING)
      (hne' : (m.work p.work).mState ≠ .WORK_RUNNING) : (m.schedule [p]).handlers p.work = [] := by
    rcases hp.state with hs | hs
    · exact absurd hs hne
    · exact absurd hs hne'
  cases p with
  | run w =>
    have hlog : (m.schedule [.run w]).log = m.log ++ [.scheduleRun w] := rfl
    simp only [Posted.work] at *
    refine ⟨by simp [htimer], by simp [hhandlers], hresting, fun _ ec hec => ?_, fun _ => ?_, ?_,
      fun _ hr => ?_, fun _ => ?_, fun ec hec => ?_⟩
    · simp [hhandlers] at hec
    · exact allChildrenSuccessful_iff.mp hp.due
    · rw [hhandlers, hlog, List.count_append, List.countP_append, hcounted]
      simp [Entry.isOnRun]
    · simp [hhandlers] at hr
    · rw [hlog]
      exact hp.settled.entered.snoc (by simp [Entry.isOnRun])
    · simp [hhandlers] at hec
  | complete w ec =>
    have hlog : (m.schedule [.complete w ec]).log = m.log ++ [.scheduleFailure w] := rfl
    simp only [Posted.work] at *
    refine ⟨by simp [htimer], by simp [hhandlers], hresting, fun _ ec' hec => ?_, fun hr => ?_, ?_,
      fun _ hr => ?_, fun _ => ?_, fun ec' hec => ?_⟩
    · rw [hhandlers] at hec
      have heq : ec' = ec := by simpa using hec
      exact heq.trans hp.due
    · simp [hhandlers] at hr
    · rw [hhandlers, hlog, List.count_append, List.countP_append, hcounted]
      simp [Entry.isOnRun]
    · rw [hlog]
      exact hp.settled.scheduled.snoc (by simp)
    · rw [hlog]
      exact hp.settled.entered.snoc (by simp [Entry.isOnRun])
    · rw [hlog]
      exact Since.now (by simp) (by simp [Entry.completes])

theorem Postable.allowed {p : Posted} (hp : m.Postable p) : Allowed m.log p.entry := by
  cases p with
  | run w => exact hp.settled.scheduled
  | complete w ec => trivial

theorem Ok.schedule_one (h : m.Ok) {p : Posted} (hp : m.Postable p) : (m.schedule [p]).Ok :=
  (touches_schedule p).ok h (h.tree.size _ hp.settled.alive) id
    (fun halive => (h.fine _ halive).schedule hp) (h.law.snoc hp.allowed)

theorem Ok.schedule (h : m.Ok) {ps : List Posted} (hps : ∀ p ∈ ps, m.Postable p)
    (hnodup : (ps.map Posted.work).Nodup) : (m.schedule ps).Ok := by
  induction ps generalizing m with
  | nil => simpa [WorkManager.schedule] using h
  | cons p ps ih =>
    have hcons : m.schedule (p :: ps) = (m.schedule [p]).schedule ps := by
      simp [WorkManager.schedule]
    rw [List.map_cons, List.nodup_cons] at hnodup
    rw [hcons]
    refine ih (h.schedule_one (hps p (by simp))) (fun q hq => ?_) hnodup.2
    have hne : q.work ≠ p.work := fun heq => hnodup.1 (heq ▸ List.mem_map_of_mem hq)
    have hpost := hps q (by simp [hq])
    refine ⟨hpost.settled.same ((touches_schedule p).same hne), hpost.state, ?_⟩
    cases q with
    | run w => exact hpost.due
    | complete w ec => exact hpost.due

/-! ## Advancing -/

theorem advanced_succ {n : ℕ} : m.advanced (n + 1) w =
    if (m.work w).mState ≠ .WORK_PENDING then []
    else (m.work w).mChildren.flatMap (fun c => m.advanced n c.2) ++
      if m.allChildrenSuccessful w then [.run w]
      else if m.anyChildRaiseFailure w then [.complete w true]
      else [] := rfl

theorem reached_succ {n : ℕ} : m.reached (n + 1) w =
    if (m.work w).mState ≠ .WORK_PENDING then []
    else w :: (m.work w).mChildren.flatMap fun c => m.reached n c.2 := rfl

/-- What is posted for a work that `advance` has got to. -/
structure Advanced (m : WorkManager) (w : ℕ) (reached : List ℕ) (p : Posted) : Prop where
  reached : p.work ∈ reached
  under : Under (fun v => (m.work v).mParent) w p.work
  alive : (m.work p.work).alive = true
  state : (m.work p.work).mState = .WORK_PENDING
  due : m.Due p

theorem mem_advanced (h : m.Tree) (hw : (m.work w).alive = true) {n : ℕ} {p : Posted}
    (hp : p ∈ m.advanced n w) : m.Advanced w (m.reached n w) p := by
  induction n generalizing w with
  | zero => simp [advanced] at hp
  | succ n ih =>
    rw [advanced_succ] at hp
    rw [reached_succ]
    by_cases hstate : (m.work w).mState = .WORK_PENDING
    · rw [if_neg (by simpa using hstate)] at hp ⊢
      rcases List.mem_append.mp hp with hp | hp
      · obtain ⟨c, hc, hp⟩ := List.mem_flatMap.mp hp
        have hadv := ih (h.living (some w) hw c hc) hp
        refine ⟨List.mem_cons_of_mem _ (List.mem_flatMap.mpr ⟨c, hc, hadv.reached⟩), ?_,
          hadv.alive, hadv.state, hadv.due⟩
        exact hadv.under.of_child (h.parent (some w) c hc)
      · have hself : p.work = w ∧ m.Due p := by
          split_ifs at hp with hall hany
          · obtain rfl := List.mem_singleton.mp hp
            exact ⟨rfl, hall⟩
          · obtain rfl := List.mem_singleton.mp hp
            exact ⟨rfl, rfl⟩
          · cases hp
        refine ⟨by simp [hself.1], ?_, ?_, ?_, hself.2⟩
        · rw [hself.1]
          exact .refl
        · rw [hself.1]
          exact hw
        · rw [hself.1]
          exact hstate
    · rw [if_pos (by simpa using hstate)] at hp
      cases hp

/-- Siblings have nothing in common. -/
theorem nodup_flatMap_advanced (h : m.Tree) {p : Option ℕ} (hp : m.isAlive p = true) {n : ℕ}
    (hchild : ∀ c ∈ m.childrenOf p, ((m.advanced n c.2).map Posted.work).Nodup) :
    (((m.childrenOf p).flatMap fun c => m.advanced n c.2).map Posted.work).Nodup := by
  rw [List.map_flatMap, List.nodup_flatMap]
  refine ⟨hchild, ?_⟩
  have hne : (m.childrenOf p).Pairwise fun c d => c.2 ≠ d.2 := by
    have := h.nodup p
    rwa [List.Nodup, List.pairwise_map] at this
  refine hne.imp_of_mem fun {c d} hc hd hcd v hv hv' => hcd ?_
  obtain ⟨x, hx, rfl⟩ := List.mem_map.mp hv
  obtain ⟨y, hy, hxy⟩ := List.mem_map.mp hv'
  have hunder := (mem_advanced h (h.living p hp c hc) hx).under
  have hunder' := (mem_advanced h (h.living p hp d hd) hy).under
  rw [hxy] at hunder'
  exact hunder.siblings h.lt ((h.parent p c hc).trans (h.parent p d hd).symm) hunder'

theorem nodup_advanced (h : m.Tree) (hw : (m.work w).alive = true) (n : ℕ) :
    ((m.advanced n w).map Posted.work).Nodup := by
  induction n generalizing w with
  | zero => simp [advanced]
  | succ n ih =>
    have hchildren : (((m.work w).mChildren.flatMap fun c => m.advanced n c.2).map
        Posted.work).Nodup :=
      nodup_flatMap_advanced h (p := some w) hw fun c hc => ih (h.living (some w) hw c hc)
    have hself : w ∉ ((m.work w).mChildren.flatMap fun c => m.advanced n c.2).map
        Posted.work := by
      intro hmem
      obtain ⟨p, hp, hpw⟩ := List.mem_map.mp hmem
      obtain ⟨c, hc, hp⟩ := List.mem_flatMap.mp hp
      have hunder := (mem_advanced h (h.living (some w) hw c hc) hp).under
      rw [hpw] at hunder
      have := hunder.le h.lt
      have := h.lt w c.2 (h.parent (some w) c hc)
      omega
    have hown (p : Posted) (hp : p.work = w) :
        ((((m.work w).mChildren.flatMap fun c => m.advanced n c.2) ++ [p]).map
          Posted.work).Nodup := by
      rw [List.map_append, List.map_singleton, hp, ← List.concat_eq_append]
      exact hchildren.concat hself
    rw [advanced_succ]
    split_ifs
    · exact List.nodup_nil
    · exact hown _ rfl
    · exact hown _ rfl
    · simpa using hchildren

/-- What `advance` posts may be posted if nothing is. -/
theorem Ok.postable (h : m.Ok) (hw : (m.work w).alive = true) (hquiet : m.Quiet w) {p : Posted}
    (hp : p ∈ m.advanced m.size w) : m.Postable p := by
  have hadv := mem_advanced h.tree hw hp
  have hidle : m.handlers p.work = [] := handlers_eq_nil.mpr (hquiet p.work hadv.reached)
  refine ⟨(h.fine p.work hadv.alive).settled hadv.alive ?_ hidle, Or.inl hadv.state, hadv.due⟩
  simp [hadv.state]

theorem Ok.advance (h : m.Ok) (hw : (m.work w).alive = true) (hquiet : m.Quiet w) :
    (m.advance w).Ok :=
  h.schedule (fun _ hp => h.postable hw hquiet hp) (nodup_advanced h.tree hw _)

theorem Ok.advanceChildren (h : m.Ok) (hquiet : ∀ c ∈ m.mChildren, m.Quiet c.2) :
    m.advanceChildren.Ok := by
  have hliving := h.tree.living none rfl
  refine h.schedule (fun p hp => ?_) (nodup_flatMap_advanced h.tree (p := none) rfl fun c hc =>
    nodup_advanced h.tree (hliving c hc) _)
  obtain ⟨c, hc, hp⟩ := List.mem_flatMap.mp hp
  exact h.postable (hliving c hc) (hquiet c hc) hp

/-! ## Changing a state -/

theorem setState_state (st : State) : ((m.setState w st).work w).mState = m.limit w st := by
  simp only [setState]
  split_ifs with hne
  · simp [modifyWork]
  · simpa using (not_not.mp hne).symm

theorem setState_timer (st : State) :
    ((m.setState w st).work w).mRetryTimer = (m.work w).mRetryTimer := by
  simp only [setState]
  split_ifs
  · simp [modifyWork, record]
  · rfl

theorem setState_handlers (st : State) : (m.setState w st).handlers v = m.handlers v := by
  simp only [setState]
  split_ifs <;> rfl

theorem setState_log (st : State) :
    (m.setState w st).log = m.log ∨
      (m.setState w st).log = m.log ++ [.changed w (m.work w).mState (m.limit w st)] := by
  simp only [setState]
  split_ifs
  · exact Or.inr rfl
  · exact Or.inl rfl

theorem law_setState (h : Law m.log) (hdone : (m.work w).mState.isDone = false) (st : State) :
    Law (m.setState w st).log := by
  rcases setState_log (m := m) (w := w) st with heq | heq
  · rw [heq]
    exact h
  · rw [heq]
    exact h.snoc hdone

theorem since_setState {p q : Entry → Prop} (hp : ∀ old new, ¬ p (.changed w old new)) (st : State)
    (h : Since p q m.log) : Since p q (m.setState w st).log := by
  rcases setState_log (m := m) (w := w) st with heq | heq
  · rw [heq]
    exact h
  · rw [heq]
    exact h.snoc (hp _ _)

theorem counts_setState (st : State) :
    (m.setState w st).log.count (.scheduleRun v) = m.log.count (.scheduleRun v) ∧
      (m.setState w st).log.countP (Entry.isOnRun v) = m.log.countP (Entry.isOnRun v) := by
  rcases setState_log (m := m) (w := w) st with heq | heq
  · rw [heq]
    exact ⟨rfl, rfl⟩
  · rw [heq, List.count_append, List.countP_append]
    simp [Entry.isOnRun]

theorem Settled.setState (h : m.Settled w) (st : State) : (m.setState w st).Settled w where
  alive := Touches.setState.alive.trans h.alive
  idle := (setState_handlers st).trans h.idle
  counted := by
    obtain ⟨hcount, hcountP⟩ := counts_setState (m := m) (w := w) (v := w) st
    rw [hcount, hcountP]
    exact h.counted
  scheduled := since_setState (by simp) st h.scheduled
  entered := since_setState (by simp [Entry.isOnRun]) st h.entered

/-- A work that has not succeeded goes to any state. -/
theorem Ok.setState (h : m.Ok) (hw : m.Settled w) (hdone : (m.work w).mState.isDone = false)
    (htimer : (m.work w).mRetryTimer = false) (st : State) : (m.setState w st).Ok := by
  refine Touches.setState.ok h (h.tree.size w hw.alive) (fun hs => ?_) (fun _ => ?_)
    (law_setState h.law hdone st)
  · rw [hs] at hdone
    cases hdone
  · refine (hw.setState st).fine fun htrue => ?_
    rw [setState_timer, htimer] at htrue
    cases htrue

theorem Settled.record (h : m.Settled w) {e : Entry} (hsched : e ≠ .scheduleRun w)
    (honRun : e.isOnRun w = false) : (m.record e).Settled w where
  alive := h.alive
  idle := h.idle
  counted := by
    simp only [WorkManager.record, List.count_append, List.countP_append]
    rw [h.counted]
    simp [honRun, hsched]
  scheduled := h.scheduled.snoc hsched
  entered := h.entered.snoc (by simp [honRun])

/-! ## Changing the tree -/

section Tree

variable {p q : Option ℕ} {cs : List (String × ℕ)} {name : String} {n : ℕ} {delayed : Bool}

theorem setChildren_work : (m.setChildren p cs).work v =
    if p = some v then { m.work v with mChildren := cs } else m.work v := by
  cases p with
  | none => rfl
  | some w =>
    simp only [setChildren, modifyWork, Option.some.injEq]
    by_cases hv : w = v
    · rw [if_pos hv, ← hv, Function.update_self]
    · rw [if_neg hv, Function.update_of_ne (Ne.symm hv)]

theorem setChildren_childrenOf : (m.setChildren p cs).childrenOf q =
    if p = q then cs else m.childrenOf q := by
  cases q with
  | some v =>
    simp only [childrenOf, setChildren_work]
    split_ifs <;> rfl
  | none =>
    cases p <;> rfl

theorem same_setChildren : m.Same (m.setChildren p cs) v := by
  have hlog : (m.setChildren p cs).log = m.log := by cases p <;> rfl
  have hposted : (m.setChildren p cs).posted = m.posted := by cases p <;> rfl
  refine ⟨?_, ?_, ?_, ?_, by rw [handlers, handlers, hposted], [], by simp [hlog]⟩
  all_goals
    rw [setChildren_work]
    split_ifs <;> rfl

theorem isAlive_setChildren : (m.setChildren p cs).isAlive q = m.isAlive q := by
  cases q with
  | none => rfl
  | some v => exact same_setChildren.alive

/-- Children go. -/
theorem Ok.setChildren (h : m.Ok) (hsub : cs.Sublist (m.childrenOf p)) :
    (m.setChildren p cs).Ok := by
  have hsize : (m.setChildren p cs).size = m.size := by cases p <;> rfl
  have hlog : (m.setChildren p cs).log = m.log := by cases p <;> rfl
  have hmem (q : Option ℕ) (c : String × ℕ) (hc : c ∈ (m.setChildren p cs).childrenOf q) :
      c ∈ m.childrenOf q := by
    rw [setChildren_childrenOf] at hc
    split_ifs at hc with hpq
    · exact hpq ▸ hsub.subset hc
    · exact hc
  refine ⟨⟨fun v hv => ?_, fun v hv => ?_, fun q c hc => ?_, fun q c hc => ?_, fun q v hv => ?_,
    fun q => ?_, fun q hq c hc => ?_⟩, fun v hv => ?_, ?_⟩
  · rw [hsize]
    exact h.tree.size v (same_setChildren.alive ▸ hv)
  · rw [hlog, same_setChildren.handlers]
    exact h.tree.new v (hsize ▸ hv)
  · rw [hsize]
    exact h.tree.inside q c (hmem q c hc)
  · rw [same_setChildren.parent]
    exact h.tree.parent q c (hmem q c hc)
  · exact h.tree.lt q v (same_setChildren.parent ▸ hv)
  · rw [setChildren_childrenOf]
    split_ifs with hpq
    · exact (h.tree.nodup p).sublist (hsub.map _)
    · exact h.tree.nodup q
  · rw [same_setChildren.alive]
    exact h.tree.living q (isAlive_setChildren ▸ hq) c (hmem q c hc)
  · have hfine := h.fine v (same_setChildren.alive ▸ hv)
    refine hfine.same same_setChildren fun hrun c hc => ?_
    rw [same_setChildren.state]
    exact hfine.ready hrun c (hmem (some v) c hc)
  · rw [hlog]
    exact h.law

theorem mem_insertChild {c : String × ℕ} :
    c ∈ insertChild name w cs ↔ c = (name, w) ∨ c ∈ cs := by
  induction cs with
  | nil => simp [insertChild]
  | cons d cs ih =>
    unfold insertChild
    split_ifs
    · simp
    · rw [List.mem_cons, ih, List.mem_cons]
      tauto

theorem nodup_insertChild (h : (cs.map Prod.snd).Nodup) (hw : w ∉ cs.map Prod.snd) :
    ((insertChild name w cs).map Prod.snd).Nodup := by
  induction cs with
  | nil => simp [insertChild]
  | cons d cs ih =>
    simp only [List.map_cons, List.nodup_cons, List.mem_cons, not_or] at h hw
    unfold insertChild
    split_ifs
    · simp only [List.map_cons, List.nodup_cons, List.mem_cons, not_or]
      exact ⟨hw, h⟩
    · simp only [List.map_cons, List.nodup_cons]
      refine ⟨fun hmem => ?_, ih h.2 hw.2⟩
      obtain ⟨c, hc, hcd⟩ := List.mem_map.mp hmem
      rcases mem_insertChild.mp hc with rfl | hc
      · exact hw.1 hcd
      · exact h.1 (hcd ▸ List.mem_map_of_mem hc)

theorem newWork_work (hp : p ≠ some m.size) : (m.newWork p name n).work v =
    if v = m.size then { mParent := p, mUniqueName := name, mMaxRetries := n, alive := true }
    else if p = some v then
      { m.work v with mChildren := insertChild name m.size (m.childrenOf p) }
    else m.work v := by
  have hmodify (f : Work → Work) : (m.modifyWork m.size f).childrenOf p = m.childrenOf p := by
    cases p with
    | none => rfl
    | some w =>
      have hw : w ≠ m.size := fun heq => hp (by rw [heq])
      simp only [childrenOf, modifyWork]
      rw [Function.update_of_ne hw]
  simp only [newWork, setChildren_work, hmodify]
  by_cases hv : v = m.size
  · have hpv : p ≠ some v := hv ▸ hp
    rw [if_pos hv, if_neg hpv, hv]
    simp [modifyWork]
  · rw [if_neg hv]
    simp only [modifyWork, Function.update_of_ne hv]

theorem newWork_size : (m.newWork p name n).size = m.size + 1 := by cases p <;> rfl

theorem newWork_log : (m.newWork p name n).log = m.log := by cases p <;> rfl

theorem newWork_handlers : (m.newWork p name n).handlers v = m.handlers v := by cases p <;> rfl

theorem newWork_childrenOf (hp : p ≠ some m.size) (hq : q ≠ some m.size) :
    (m.newWork p name n).childrenOf q =
      if p = q then insertChild name m.size (m.childrenOf p) else m.childrenOf q := by
  cases q with
  | some v =>
    have hv : v ≠ m.size := fun heq => hq (by rw [heq])
    simp only [childrenOf]
    rw [newWork_work hp, if_neg hv]
    split_ifs <;> rfl
  | none => cases p <;> rfl

theorem newWork_childrenOf_new (hp : p ≠ some m.size) :
    (m.newWork p name n).childrenOf (some m.size) = [] := by
  simp only [childrenOf]
  rw [newWork_work hp, if_pos rfl]

theorem same_newWork (hp : p ≠ some m.size) (hv : v ≠ m.size) : m.Same (m.newWork p name n) v := by
  refine ⟨?_, ?_, ?_, ?_, newWork_handlers, [], by simp [newWork_log]⟩
  all_goals
    rw [newWork_work hp, if_neg hv]
    split_ifs <;> rfl

theorem Tree.ne_size (h : m.Tree) (hp : m.isAlive p = true) : p ≠ some m.size := by
  rintro rfl
  exact absurd (h.size m.size hp) (Nat.lt_irrefl _)

/-- Where a child after `newWork` comes from. -/
theorem mem_childrenOf_newWork (hp : p ≠ some m.size) {c : String × ℕ}
    (hc : c ∈ (m.newWork p name n).childrenOf q) :
    q ≠ some m.size ∧ (p = q ∧ c = (name, m.size) ∨ c ∈ m.childrenOf q) := by
  by_cases hq : q = some m.size
  · rw [hq, newWork_childrenOf_new hp] at hc
    cases hc
  · rw [newWork_childrenOf hp hq] at hc
    refine ⟨hq, ?_⟩
    split_ifs at hc with hpq
    · rcases mem_insertChild.mp hc with hc | hc
      · exact Or.inl ⟨hpq, hc⟩
      · exact Or.inr (hpq ▸ hc)
    · exact Or.inr hc

theorem Tree.newWork (h : m.Tree) (hp : m.isAlive p = true) : (m.newWork p name n).Tree := by
  have hne := h.ne_size hp
  have hnew : (m.newWork p name n).work m.size =
      { mParent := p, mUniqueName := name, mMaxRetries := n, alive := true } := by
    rw [newWork_work hne, if_pos rfl]
  refine ⟨fun v hv => ?_, fun v hv => ?_, fun q c hc => ?_, fun q c hc => ?_, fun q v hv => ?_,
    fun q => ?_, fun q hq c hc => ?_⟩
  · rw [newWork_size]
    by_cases hvs : v = m.size
    · omega
    · have := h.size v ((same_newWork hne hvs).alive ▸ hv)
      omega
  · rw [newWork_size] at hv
    rw [newWork_log, newWork_handlers]
    exact h.new v (by omega)
  · rw [newWork_size]
    obtain ⟨-, ⟨-, rfl⟩ | hc⟩ := mem_childrenOf_newWork hne hc
    · exact Nat.lt_succ_self _
    · exact Nat.lt_succ_of_lt (h.inside q c hc)
  · obtain ⟨-, ⟨rfl, rfl⟩ | hc⟩ := mem_childrenOf_newWork hne hc
    · rw [hnew]
    · rw [(same_newWork hne (Nat.ne_of_lt (h.inside q c hc))).parent]
      exact h.parent q c hc
  · by_cases hvs : v = m.size
    · rw [hvs, hnew] at hv
      simp only at hv
      rw [hv] at hp
      rw [hvs]
      exact h.size q hp
    · exact h.lt q v ((same_newWork hne hvs).parent ▸ hv)
  · by_cases hq : q = some m.size
    · rw [hq, newWork_childrenOf_new hne]
      exact List.nodup_nil
    · rw [newWork_childrenOf hne hq]
      split_ifs
      · refine nodup_insertChild (h.nodup p) fun hmem => ?_
        obtain ⟨c, hc, hcs⟩ := List.mem_map.mp hmem
        exact absurd (h.inside p c hc) (by omega)
      · exact h.nodup q
  · obtain ⟨hqs, ⟨-, rfl⟩ | hc⟩ := mem_childrenOf_newWork hne hc
    · rw [hnew]
    · rw [(same_newWork hne (Nat.ne_of_lt (h.inside q c hc))).alive]
      refine h.living q ?_ c hc
      cases q with
      | none => rfl
      | some v =>
        have hvs : v ≠ m.size := fun heq => hqs (by rw [heq])
        exact (same_newWork hne hvs).alive.symm.trans hq

/-- Nothing has happened to a new work. -/
theorem Tree.settled_newWork (h : m.Tree) (hp : m.isAlive p = true) :
    (m.newWork p name n).Settled m.size := by
  obtain ⟨hidle, hlog⟩ := h.new m.size (Nat.le_refl _)
  have hsched (e : Entry) (he : e ∈ m.log) : ¬ e = .scheduleRun m.size :=
    fun heq => hlog e he (work_scheduleRun e heq)
  have honRun (e : Entry) (he : e ∈ m.log) : ¬ e.isOnRun m.size = true :=
    fun hon => hlog e he (Entry.work_of_isOnRun hon)
  refine ⟨?_, newWork_handlers.trans hidle, ?_, ?_, ?_⟩
  · rw [newWork_work (h.ne_size hp), if_pos rfl]
  · rw [newWork_log, List.count_eq_zero.mpr fun hmem => hsched _ hmem rfl,
      List.countP_eq_zero.mpr honRun]
  · rw [newWork_log]
    exact Since.of_forall_not hsched
  · rw [newWork_log]
    exact Since.of_forall_not honRun

theorem Ok.newWork (h : m.Ok) (hp : m.isAlive p = true)
    (hrun : ∀ v, p = some v → .run v ∉ m.posted) : (m.newWork p name n).Ok := by
  have hne := h.tree.ne_size hp
  refine ⟨h.tree.newWork hp, fun v hv => ?_, by rw [newWork_log]; exact h.law⟩
  by_cases hvs : v = m.size
  · rw [hvs]
    refine (h.tree.settled_newWork hp).fine fun htimer => ?_
    rw [newWork_work hne, if_pos rfl] at htimer
    cases htimer
  · have hsame : m.Same (m.newWork p name n) v := same_newWork hne hvs
    have hfine := h.fine v (hsame.alive ▸ hv)
    refine hfine.same hsame fun hmem c hc => ?_
    obtain ⟨-, ⟨hpv, -⟩ | hc⟩ := mem_childrenOf_newWork (q := some v) hne hc
    · exact absurd (run_mem_handlers.mp hmem) (hrun v hpv)
    · rw [(same_newWork hne (Nat.ne_of_lt (h.tree.inside (some v) c hc))).state]
      exact hfine.ready hmem c hc

/-- The first `reset` of a work. -/
theorem reset_newWork (h : m.Tree) (hp : m.isAlive p = true) :
    (m.newWork p name n).reset m.size = (m.newWork p name n).record (.reset m.size) := by
  have hstate : ((m.newWork p name n).work m.size).mState = .WORK_PENDING := by
    rw [newWork_work (h.ne_size hp), if_pos rfl]
  simp [reset, WorkManager.setState, limit, record, hstate]

theorem Ok.reset_newWork (h : m.Ok) (hp : m.isAlive p = true)
    (hrun : ∀ v, p = some v → .run v ∉ m.posted) :
    ((m.newWork p name n).reset m.size).Ok ∧
      ((m.newWork p name n).reset m.size).Settled m.size := by
  have hsettled : ((m.newWork p name n).record (.reset m.size)).Settled m.size :=
    (h.tree.settled_newWork hp).record (by simp) rfl
  have hok : (m.newWork p name n).Ok := h.newWork hp hrun
  rw [WorkManager.reset_newWork h.tree hp]
  refine ⟨(Touches.record rfl).ok hok ?_ id (fun _ => hsettled.fine ?_) (hok.law.snoc trivial),
    hsettled⟩
  · rw [newWork_size]
    exact Nat.lt_succ_self _
  · intro htimer
    simp only [record] at htimer
    rw [newWork_work (h.tree.ne_size hp), if_pos rfl] at htimer
    cases htimer

theorem Ok.scheduleRetry (h : m.Ok) (hw : m.Settled w) (hm : m.scheduleRetry w = some m') :
    m'.Ok := by
  simp only [WorkManager.scheduleRetry] at hm
  split_ifs at hm with hstate
  obtain rfl := Option.some.inj hm
  have htouch : m.Touches (m.modifyWork w fun s => { s with mRetryTimer := true }) w :=
    Touches.modifyWork rfl rfl rfl
  have hstate' : ((m.modifyWork w fun s => { s with mRetryTimer := true }).work w).mState =
      (m.work w).mState := by
    simp [modifyWork]
  refine htouch.ok h (h.tree.size w hw.alive) (fun hs => hstate'.trans hs) (fun _ => ?_) h.law
  refine Settled.fine ⟨htouch.alive.trans hw.alive, hw.idle, hw.counted, hw.scheduled,
    hw.entered⟩ fun _ => ?_
  exact hstate'.trans (not_not.mp hstate)

theorem Ok.addWork (h : m.Ok) (hrun : ∀ v, p = some v → .run v ∉ m.posted)
    (hm : m.addWork p name n delayed = some m') : m'.Ok := by
  simp only [WorkManager.addWork] at hm
  split_ifs at hm with hp hdup hdelayed
  · have hreset : ((m.newWork p name n).reset m.size).Ok ∧ _ :=
      h.reset_newWork (by simpa using hp) hrun
    obtain ⟨hok, hsettled⟩ := hreset
    have hnew : (((m.newWork p name n).reset m.size).work m.size).mState = .WORK_PENDING ∧
        (((m.newWork p name n).reset m.size).work m.size).mRetryTimer = false := by
      rw [WorkManager.reset_newWork h.tree (by simpa using hp)]
      simp only [record]
      rw [newWork_work (h.tree.ne_size (by simpa using hp)), if_pos rfl]
      exact ⟨rfl, rfl⟩
    refine (hok.setState hsettled ?_ hnew.2 _).scheduleRetry (hsettled.setState _) hm
    rw [hnew.1]
    rfl
  · obtain rfl := Option.some.inj hm
    exact (h.reset_newWork (by simpa using hp) hrun).1

theorem same_addWork (h : m.Tree) (hv : (m.work v).alive = true)
    (hm : m.addWork p name n delayed = some m') : m.Same m' v := by
  have hvs : v ≠ m.size := Nat.ne_of_lt (h.size v hv)
  have hreset (hp : m.isAlive p = true) : m.Same ((m.newWork p name n).reset m.size) v := by
    have hnew : m.Same (m.newWork p name n) v := same_newWork (h.ne_size hp) hvs
    exact hnew.trans (((Touches.record rfl).trans Touches.setState).same hvs)
  simp only [WorkManager.addWork] at hm
  split_ifs at hm with hp hdup hdelayed
  · have hreset := hreset (by simpa using hp)
    simp only [scheduleRetry] at hm
    split_ifs at hm
    obtain rfl := Option.some.inj hm
    exact (hreset.trans (Touches.setState.same hvs)).trans
      ((Touches.modifyWork rfl rfl rfl).same hvs)
  · obtain rfl := Option.some.inj hm
    exact hreset (by simpa using hp)

end Tree

theorem same_schedule {ps : List Posted} (hps : ∀ p ∈ ps, p.work ≠ v) :
    m.Same (m.schedule ps) v := by
  refine ⟨rfl, rfl, rfl, rfl, ?_, ps.map Posted.entry, rfl, fun e he => ?_⟩
  · have hnil : ps.filter (fun p => p.work = v) = [] := by
      rw [List.filter_eq_nil_iff]
      intro p hp
      simpa using hps p hp
    simp only [handlers, schedule, List.filter_append]
    rw [hnil, List.append_nil]
  · obtain ⟨p, hp, rfl⟩ := List.mem_map.mp he
    rw [entry_work]
    exact hps p hp

theorem same_advanceChildren (h : m.Tree) (hv : (m.work v).mState ≠ .WORK_PENDING) :
    m.Same m.advanceChildren v := by
  refine same_schedule fun p hp heq => hv ?_
  obtain ⟨c, hc, hp⟩ := List.mem_flatMap.mp hp
  rw [← heq]
  exact (mem_advanced h (h.living none rfl c hc) hp).state

/-! ## Callbacks -/

/-- What callbacks keep. -/
structure Kept (m m' : WorkManager) : Prop where
  ok : m'.Ok
  alive : ∀ v, (m.work v).alive = true → (m'.work v).alive = true
  same : ∀ v, (m.work v).alive = true → (m.work v).mState ≠ .WORK_PENDING → m.Same m' v

theorem Kept.trans {m'' : WorkManager} (h : m.Kept m') (h' : m'.Kept m'') : m.Kept m'' where
  ok := h'.ok
  alive v hv := h'.alive v (h.alive v hv)
  same v hv hs := by
    have hsame := h.same v hv hs
    exact hsame.trans (h'.same v (h.alive v hv) (hsame.state ▸ hs))

theorem Ok.kept (h : m'.Ok) (hsame : ∀ v, (m.work v).alive = true → m.Same m' v) : m.Kept m' :=
  ⟨h, fun v hv => (hsame v hv).alive.trans hv, fun v hv _ => hsame v hv⟩

theorem Ok.kept_op (h : m.Ok) {o : Op} (hc : Op.Careful m o) (hm : m.op o = some m') :
    m.Kept m' := by
  cases o with
  | addWork p name n delayed =>
    refine (h.addWork (fun v hv => ?_) hm).kept fun v hv => same_addWork h.tree hv hm
    rw [hv] at hc
    exact hc
  | clearChildren w =>
    simp only [op] at hm
    split_ifs at hm
    obtain rfl := Option.some.inj hm
    exact (h.setChildren (List.nil_sublist _)).kept fun v _ => same_setChildren
  | eraseChild w name =>
    simp only [op] at hm
    split_ifs at hm
    obtain rfl := Option.some.inj hm
    exact (h.setChildren (p := some w) List.filter_sublist).kept fun v _ => same_setChildren
  | advanceChildren =>
    obtain rfl := Option.some.inj hm
    exact ⟨h.advanceChildren hc, fun v hv => hv, fun v _ hs => same_advanceChildren h.tree hs⟩

theorem Ok.kept_ops (h : m.Ok) {os : List Op} (hc : OpsCareful os m) (hm : ops os m = some m') :
    m.Kept m' := by
  induction os generalizing m with
  | nil =>
    obtain rfl := Option.some.inj hm
    exact h.kept fun v _ => .refl m v
  | cons o os ih =>
    obtain ⟨m₁, hm₁, hm⟩ := Option.bind_eq_some_iff.mp hm
    have hkept := h.kept_op hc.1 hm₁
    exact hkept.trans (ih hkept.ok (hc.2 m₁ hm₁) hm)

/-! ## Handlers -/

/-- A handler that is there is the only one of its work. -/
theorem Fine.handlers_eq (h : m.Fine w) {p : Posted} (hp : p ∈ m.posted) (hw : p.work = w) :
    m.handlers w = [p] := by
  have hmem : p ∈ m.handlers w := mem_handlers.mpr ⟨hp, hw⟩
  have hload := h.load
  obtain ⟨q, hq⟩ : ∃ q, m.handlers w = [q] := by
    rw [← List.length_eq_one_iff]
    have := List.length_pos_of_mem hmem
    omega
  rw [hq] at hmem
  rw [hq, List.mem_singleton.mp hmem]

theorem handlers_erase {p : Posted} (h : m.handlers w = [p]) :
    handlers { m with posted := m.posted.erase p } w = [] := by
  simp only [handlers] at h ⊢
  rw [← List.erase_filter, h]
  simp

/-- A work that has a handler waits or runs. -/
theorem Fine.state_of_handlers (h : m.Fine w) {p : Posted} (hp : m.handlers w = [p]) :
    (m.work w).mState = .WORK_PENDING ∨ (m.work w).mState = .WORK_RUNNING := by
  by_contra hne
  rw [not_or] at hne
  have := h.resting hne.1 hne.2
  rw [hp] at this
  cases this

theorem isDone_eq_false {st : State} (h : st = .WORK_PENDING ∨ st = .WORK_RUNNING) :
    st.isDone = false := by
  rcases h with rfl | rfl <;> rfl

/-- A work that has just been entered. -/
structure Entered (m : WorkManager) (w : ℕ) : Prop where
  alive : (m.work w).alive = true
  state : (m.work w).mState = .WORK_RUNNING
  timer : (m.work w).mRetryTimer = false
  idle : m.handlers w = []
  counted : m.log.count (.scheduleRun w) = m.log.countP (Entry.isOnRun w)
  completed : Since (· = .complete w) (Entry.completes w · = true) m.log

theorem Entered.same (h : m.Entered w) (hsame : m.Same m' w) : m'.Entered w where
  alive := hsame.alive.trans h.alive
  state := hsame.state.trans h.state
  timer := hsame.timer.trans h.timer
  idle := hsame.handlers.trans h.idle
  counted := by
    obtain ⟨hcount, hcountP⟩ := hsame.counts
    rw [hcount, hcountP, h.counted]
  completed := hsame.since work_complete h.completed

/-- The completion of the run may be posted. -/
theorem Entered.fine (h : m.Entered w) (completion : Option Bool) :
    Fine { m with posted := m.posted ++ completion.toList.map (Posted.complete w) } w := by
  have hhandlers : handlers
      { m with posted := m.posted ++ completion.toList.map (Posted.complete w) } w =
        completion.toList.map (Posted.complete w) := by
    have hidle := h.idle
    simp only [handlers, List.filter_append] at hidle ⊢
    rw [hidle, List.nil_append, List.filter_eq_self]
    intro p hp
    obtain ⟨ec, -, rfl⟩ := List.mem_map.mp hp
    simp [Posted.work]
  have hrun : .run w ∉ completion.toList.map (Posted.complete w) := by simp
  refine ⟨fun htimer => ?_, ?_, fun _ hs => absurd h.state hs, fun hs => ?_, fun hr => ?_, ?_,
    fun hs => absurd h.state hs, fun hor => ?_, fun ec _ => h.completed⟩
  · rw [h.timer] at htimer
    cases htimer
  · rw [hhandlers]
    cases completion <;> simp
  · rw [h.state] at hs
    cases hs
  · rw [hhandlers] at hr
    exact absurd hr hrun
  · rw [hhandlers, List.count_eq_zero.mpr hrun]
    exact h.counted
  · rw [hhandlers] at hor
    rcases hor with hs | hr
    · exact absurd h.state hs
    · exact absurd hr hrun

theorem Ok.enter (h : m.Ok) (hw : (m.work w).alive = true) (hp : .run w ∈ m.posted) :
    (m.enter w).Ok ∧ (m.enter w).Entered w := by
  have hfine := h.fine w hw
  have hhandlers := hfine.handlers_eq hp rfl
  have hstate := hfine.state_of_handlers hhandlers
  let m₁ : WorkManager := { m with posted := m.posted.erase (.run w) }
  let m₂ := m₁.setState w .WORK_RUNNING
  have htouch₂ : m.Touches m₂ w := (Touches.erase rfl).trans Touches.setState
  have htouch : m.Touches (m.enter w) w := htouch₂.trans (Touches.record rfl)
  have hready : m₂.allChildrenSuccessful w = true := by
    rw [allChildrenSuccessful_iff, htouch₂.children]
    intro c hc
    have hlt := h.tree.lt w c.2 (h.tree.parent (some w) c hc)
    rw [htouch₂.others c.2 (Nat.ne_of_gt hlt)]
    exact hfine.ready (by simp [hhandlers]) c hc
  have hstate' : ((m.enter w).work w).mState = .WORK_RUNNING :=
    (setState_state .WORK_RUNNING).trans (by simp [limit])
  have hlog : (m.enter w).log = m₂.log ++ [.onRun w true] := by
    rw [← hready]
    rfl
  have hentered : (m.enter w).Entered w := by
    refine ⟨htouch.alive.trans hw, hstate', ?_, ?_, ?_, ?_⟩
    · exact (setState_timer .WORK_RUNNING).trans (hfine.timer_false hstate)
    · exact (setState_handlers .WORK_RUNNING).trans (handlers_erase hhandlers)
    · obtain ⟨hcount, hcountP⟩ : m₂.log.count (.scheduleRun w) = m.log.count (.scheduleRun w) ∧
          m₂.log.countP (Entry.isOnRun w) = m.log.countP (Entry.isOnRun w) :=
        counts_setState .WORK_RUNNING
      rw [hlog, List.count_append, List.countP_append, hcount, hcountP, hfine.counted, hhandlers]
      simp [Entry.isOnRun]
    · rw [hlog]
      exact Since.now (by simp) (by simp [Entry.completes])
  refine ⟨htouch.ok h (h.tree.size w hw) (fun hs => ?_) (fun _ => ?_) ?_, hentered⟩
  · rcases hstate with hs' | hs' <;> simp [hs] at hs'
  · simpa using hentered.fine none
  · rw [hlog]
    have hlaw : Law m₂.log := law_setState (m := m₁) h.law (isDone_eq_false hstate) _
    refine hlaw.snoc ⟨rfl, ?_⟩
    exact since_setState (m := m₁) (by simp [Entry.isOnRun]) _
      (hfine.entered (Or.inr (by simp [hhandlers])))

theorem Ok.run (h : m.Ok) (hw : (m.work w).alive = true) (hp : .run w ∈ m.posted)
    {onRun : List Op} {completion : Option Bool} (hc : OpsCareful onRun (m.enter w))
    (hm : m.run w onRun completion = some m') : m'.Ok := by
  obtain ⟨hok, hentered⟩ := h.enter hw hp
  obtain ⟨m₁, hm₁, rfl⟩ := Option.map_eq_some_iff.mp hm
  have hkept := hok.kept_ops hc hm₁
  have hentered' : m₁.Entered w :=
    hentered.same (hkept.same w hentered.alive (by simp [hentered.state]))
  refine Touches.ok (Touches.post fun p hp => ?_) hkept.ok (hkept.ok.tree.size w hentered'.alive) id
    (fun _ => hentered'.fine completion) hkept.ok.law
  obtain ⟨ec, -, rfl⟩ := List.mem_map.mp hp
  rfl

/-- The handler of a completion. -/
theorem Ok.completing (h : m.Ok) (hw : (m.work w).alive = true) {ec : Bool}
    (hp : .complete w ec ∈ m.posted) :
    (m.completing w ec).Ok ∧ (m.completing w ec).Settled w := by
  have hfine := h.fine w hw
  have hhandlers := hfine.handlers_eq hp rfl
  have hstate := hfine.state_of_handlers hhandlers
  have hsettled : (m.completing w ec).Settled w := by
    refine ⟨hw, handlers_erase hhandlers, ?_, Since.now (by simp) rfl,
      Since.now (by simp [Entry.isOnRun]) rfl⟩
    have hcounted := hfine.counted
    rw [hhandlers] at hcounted
    simpa [WorkManager.completing, record, Entry.isOnRun] using hcounted
  refine ⟨((Touches.erase rfl).trans (Touches.record rfl)).ok h (h.tree.size w hw) id (fun _ => ?_)
    (h.law.snoc (hfine.completed ec (by simp [hhandlers]))), hsettled⟩
  refine hsettled.fine fun htimer => ?_
  exact absurd htimer (by simp [WorkManager.completing, record, hfine.timer_false hstate])

/-- `complete`, up to the new state. -/
theorem Ok.completed (h : m.Ok) (hw : (m.work w).alive = true) {ec : Bool} {cb : Callbacks}
    (hp : .complete w ec ∈ m.posted)
    (hc : ec = false → OpsCareful cb.onSuccess (m.completing w ec))
    (hm : m.completed w ec cb = some m') :
    m'.Ok ∧ m'.Settled w ∧ (m'.work w).mRetryTimer = false := by
  obtain ⟨hok, hsettled⟩ := h.completing hw hp
  have hfine := h.fine w hw
  have hhandlers := hfine.handlers_eq hp rfl
  have hstate := hfine.state_of_handlers hhandlers
  have htimer := hfine.timer_false hstate
  have hdone := isDone_eq_false hstate
  cases ec with
  | true =>
    obtain rfl := Option.some.inj hm
    exact ⟨hok.setState hsettled hdone htimer _, hsettled.setState _,
      (setState_timer _).trans htimer⟩
  | false =>
    obtain ⟨m₁, hm₁, rfl⟩ := Option.map_eq_some_iff.mp hm
    have hkept := hok.kept_ops (hc rfl) hm₁
    -- a completion without error belongs to a run
    have hrunning : (m.work w).mState = .WORK_RUNNING := by
      refine hstate.resolve_left fun hpending => ?_
      have := hfine.failing hpending false (by simp [hhandlers])
      cases this
    have hsame : (m.completing w false).Same m₁ w :=
      hkept.same w hw (by simp [WorkManager.completing, record, hrunning])
    have hsettled' := hsettled.same hsame
    have htimer' : (m₁.work w).mRetryTimer = false := hsame.timer.trans htimer
    refine ⟨hkept.ok.setState hsettled' ?_ htimer' _, hsettled'.setState _,
      (setState_timer _).trans htimer'⟩
    rw [hsame.state]
    exact hdone


theorem reached_congr (h : m'.work = m.work) (n : ℕ) : m'.reached n w = m.reached n w := by
  induction n generalizing w with
  | zero => rfl
  | succ n ih =>
    rw [reached_succ, reached_succ, h]
    simp only [ih]

theorem Ok.notify (h : m.Ok) {name : String}
    (hc : name ∈ m.mChildren.map Prod.fst → ∀ c ∈ m.mChildren, m.Quiet c.2) :
    (m.notify name).Ok := by
  unfold WorkManager.notify
  split
  · exact h
  · rename_i c hfind
    have hquiet := hc (List.mem_map.mpr
      ⟨c, List.mem_of_find?_eq_some hfind, by simpa using List.find?_some hfind⟩)
    split_ifs
    · have hok : (m.setChildren none (WorkManager.eraseChild name m.mChildren)).Ok :=
        h.setChildren List.filter_sublist
      refine hok.advanceChildren fun d hd v hv => ?_
      have heq : (m.setChildren none (WorkManager.eraseChild name m.mChildren)).reached m.size d.2 =
          m.reached m.size d.2 := reached_congr (by rfl) m.size
      exact hquiet d (List.mem_of_mem_filter hd) v (heq ▸ hv)
    · exact h.advanceChildren hquiet

theorem Ok.notifyParent (h : m.Ok) {onNotify : List Op} (hc : m.NotifyCareful w onNotify)
    (hm : m.notifyParent w onNotify = some m') : m'.Ok := by
  unfold NotifyCareful at hc
  unfold WorkManager.notifyParent at hm
  cases hparent : (m.work w).mParent with
  | none =>
    simp only [hparent] at hc hm
    obtain rfl := Option.some.inj hm
    exact h.notify hc
  | some parent =>
    simp only [hparent] at hc hm
    split_ifs at hm with halive
    · obtain ⟨hcareful, hquiet⟩ := hc halive
      obtain ⟨m₁, hm₁, rfl⟩ := Option.map_eq_some_iff.mp hm
      have hkept := h.kept_ops hcareful hm₁
      exact hkept.ok.advance (hkept.alive parent halive) (hquiet m₁ hm₁)
    · obtain rfl := Option.some.inj hm
      exact h

theorem Ok.goOn (h : m.Ok) (hw : m.Settled w) {cb : Callbacks} (hc : m.GoOnCareful w cb)
    (hm : m.goOn w cb = some m') : m'.Ok := by
  unfold GoOnCareful at hc
  unfold WorkManager.goOn at hm
  cases hstate : (m.work w).mState with
  | WORK_SUCCESS =>
    simp only [hstate] at hc hm
    exact h.notifyParent hc hm
  | WORK_FAILURE_RETRY =>
    simp only [hstate] at hc hm
    obtain ⟨m₁, hm₁, hm⟩ := Option.bind_eq_some_iff.mp hm
    have hkept := h.kept_ops hc hm₁
    exact hkept.ok.scheduleRetry (hw.same (hkept.same w hw.alive (by simp [hstate]))) hm
  | WORK_FAILURE_RAISE =>
    simp only [hstate] at hc hm
    obtain ⟨m₁, hm₁, hm⟩ := Option.bind_eq_some_iff.mp hm
    exact (h.kept_ops hc.1 hm₁).ok.notifyParent (hc.2 m₁ hm₁) hm
  | WORK_PENDING =>
    simp only [hstate] at hc hm
    obtain rfl := Option.some.inj hm
    exact h.advance hw.alive hc
  | WORK_RUNNING =>
    simp only [hstate] at hc hm
    obtain rfl := Option.some.inj hm
    exact h.schedule_one ⟨hw, Or.inr hstate, hc⟩

/-- The timer of a work expires. -/
theorem Ok.retrying (h : m.Ok) (hw : (m.work w).alive = true)
    (htimer : (m.work w).mRetryTimer = true) : (m.retrying w).Ok ∧
      ((m.retrying w).work w).alive = true := by
  have hfine := h.fine w hw
  have hstate := hfine.timer htimer
  have hsettled := hfine.settled hw (by simp [hstate])
    (hfine.resting (by simp [hstate]) (by simp [hstate]))
  let m₁ : WorkManager := (m.modifyWork w fun s =>
    { s with mRetryTimer := false, mRetries := s.mRetries + 1 }).record (.reset w)
  have htouch : m.Touches m₁ w := (Touches.modifyWork rfl rfl rfl).trans (Touches.record rfl)
  have hwork : (m₁.work w).mState = .WORK_FAILURE_RETRY ∧ (m₁.work w).mRetryTimer = false := by
    simp [m₁, modifyWork, record, hstate]
  have hsettled₁ : m₁.Settled w := by
    have h₀ : (m.modifyWork w fun s =>
        { s with mRetryTimer := false, mRetries := s.mRetries + 1 }).Settled w :=
      ⟨by simpa [modifyWork] using hw, hsettled.idle, hsettled.counted, hsettled.scheduled,
        hsettled.entered⟩
    exact h₀.record (by simp) rfl
  have hok : m₁.Ok := by
    refine htouch.ok h (h.tree.size w hw) (fun hs => ?_) (fun _ => hsettled₁.fine fun _ => hwork.1)
      (h.law.snoc trivial)
    rw [hstate] at hs
    cases hs
  refine ⟨hok.setState hsettled₁ ?_ hwork.2 _, Touches.setState.alive.trans hsettled₁.alive⟩
  rw [hwork.1]
  rfl

theorem Ok.retry (h : m.Ok) (hw : (m.work w).alive = true) (htimer : (m.work w).mRetryTimer = true)
    {onReset : List Op} (hc : OpsCareful onReset (m.retrying w))
    (hquiet : ∀ m₁ ∈ ops onReset (m.retrying w), m₁.Quiet w)
    (hm : m.retry w onReset = some m') : m'.Ok := by
  obtain ⟨hok, halive⟩ := h.retrying hw htimer
  obtain ⟨m₁, hm₁, rfl⟩ := Option.map_eq_some_iff.mp hm
  have hkept := hok.kept_ops hc hm₁
  exact hkept.ok.advance (hkept.alive w halive) (hquiet m₁ hm₁)

/-- The handler of a work that is gone. -/
theorem Ok.erase (h : m.Ok) (hw : (m.work w).alive = false) {p : Posted} (hp : p ∈ m.posted)
    (hpw : p.work = w) : Ok { m with posted := m.posted.erase p } := by
  refine (Touches.erase hpw).ok h ?_ id (fun halive => ?_) h.law
  · by_contra hge
    have hnil := (h.tree.new w (Nat.not_lt.mp hge)).1
    exact handlers_eq_nil.mp hnil p hp hpw
  · rw [hw] at halive
    cases halive

theorem ne_of_isHeld (h : m.isHeld w = false) (ht : m.Tree) {p : Option ℕ}
    (hp : m.isAlive p = true) {c : String × ℕ} (hc : c ∈ m.childrenOf p) : c.2 ≠ w := by
  simp only [isHeld, Bool.or_eq_false_iff] at h
  intro hcw
  cases p with
  | none =>
    have := List.any_eq_false.mp h.1 c hc
    simp [hcw] at this
  | some v =>
    have := List.any_eq_false.mp h.2 v (List.mem_range.mpr (ht.size v hp))
    rw [Bool.and_eq_true, not_and] at this
    exact this hp (List.any_eq_true.mpr ⟨c, hc, by simp [hcw]⟩)

/-- The last reference to a work goes. -/
theorem Ok.destroy (h : m.Ok) (hheld : m.isHeld w = false) :
    (m.modifyWork w fun s => { s with alive := false }).Ok := by
  let m₁ := m.modifyWork w fun s => { s with alive := false }
  have hwork (v : ℕ) : (m₁.work v).mParent = (m.work v).mParent ∧
      (m₁.work v).mChildren = (m.work v).mChildren ∧ (m₁.work v).mState = (m.work v).mState := by
    by_cases hv : v = w
    · rw [hv]
      simp [m₁, modifyWork]
    · simp [m₁, modifyWork, Function.update_of_ne hv]
  have halive (v : ℕ) (hv : (m₁.work v).alive = true) : v ≠ w ∧ (m.work v).alive = true := by
    by_cases hvw : v = w
    · rw [hvw] at hv
      simp [m₁, modifyWork] at hv
    · rw [show m₁.work v = m.work v from Function.update_of_ne hvw _ _] at hv
      exact ⟨hvw, hv⟩
  have hchildren (p : Option ℕ) : m₁.childrenOf p = m.childrenOf p := by
    cases p with
    | none => rfl
    | some v => exact (hwork v).2.1
  refine ⟨⟨fun v hv => h.tree.size v (halive v hv).2, h.tree.new, fun p c hc => ?_,
    fun p c hc => ?_, fun p v hv => ?_, fun p => ?_, fun p hp c hc => ?_⟩, fun v hv => ?_, h.law⟩
  · rw [hchildren] at hc
    exact h.tree.inside p c hc
  · rw [hchildren] at hc
    exact (hwork c.2).1.trans (h.tree.parent p c hc)
  · exact h.tree.lt p v ((hwork v).1.symm.trans hv)
  · rw [hchildren]
    exact h.tree.nodup p
  · rw [hchildren] at hc
    have hp' : m.isAlive p = true := by
      cases p with
      | none => rfl
      | some v => exact (halive v hp).2
    have hne : c.2 ≠ w := ne_of_isHeld hheld h.tree hp' hc
    rw [show m₁.work c.2 = m.work c.2 from Function.update_of_ne hne _ _]
    exact h.tree.living p hp' c hc
  · obtain ⟨hne, hv'⟩ := halive v hv
    have heq : m₁.work v = m.work v := Function.update_of_ne hne _ _
    have hsame : m.Same m₁ v :=
      ⟨by rw [heq], by rw [heq], by rw [heq], by rw [heq], rfl, [], by simp [m₁, modifyWork]⟩
    refine (h.fine v hv').same hsame fun hrun c hc => ?_
    rw [(hwork c.2).2.2]
    exact (h.fine v hv').ready hrun c ((hwork v).2.1 ▸ hc)

/-- One action. -/
theorem Ok.act (h : m.Ok) {a : Action} (hc : m.Careful a) (hm : m.act a = some m') : m'.Ok := by
  cases a with
  | run w onRun completion =>
    simp only [WorkManager.act] at hm
    split_ifs at hm with hp halive
    · exact h.run halive hp (hc halive) hm
    · obtain rfl := Option.some.inj hm
      exact h.erase (w := w) (by simpa using halive) hp rfl
  | complete w ec cb =>
    simp only [WorkManager.act] at hm
    split_ifs at hm with hp halive
    · obtain ⟨hsuccess, hgoOn⟩ := hc halive
      obtain ⟨m₁, hm₁, hm⟩ := Option.bind_eq_some_iff.mp hm
      obtain ⟨hok, hsettled, -⟩ := h.completed halive hp hsuccess hm₁
      exact hok.goOn hsettled (hgoOn m₁ hm₁) hm
    · obtain rfl := Option.some.inj hm
      exact h.erase (w := w) (by simpa using halive) hp rfl
  | retry w onReset =>
    simp only [WorkManager.act] at hm
    split_ifs at hm with hw
    rw [Bool.and_eq_true] at hw
    exact h.retry hw.1 hw.2 hc.1 hc.2 hm
  | call os => exact (h.kept_ops hc hm).ok
  | destroy w =>
    simp only [WorkManager.act] at hm
    split_ifs at hm with hheld
    obtain rfl := Option.some.inj hm
    exact h.destroy (by simpa using hheld)

theorem Ok.create : Ok {} where
  tree := ⟨by simp, by simp [handlers], fun p => by cases p <;> simp [childrenOf],
    fun p => by cases p <;> simp [childrenOf], by simp, fun p => by cases p <;> simp [childrenOf],
    fun p _ => by cases p <;> simp [childrenOf]⟩
  fine w hw := by simp at hw
  law := .nil

theorem Ok.runsOnce (h : m.Ok) : m.RunsOnce where
  counted w hw := by
    rw [(h.fine w hw).counted, handlers, List.count_filter (by simp [Posted.work])]
  scheduled := h.law.scheduled
  entered := h.law.entered
  ready := h.law.ready
  completed := h.law.completed
  done pre w old new post hlog hdone := by
    have := h.law.changed w old new (by simp [hlog])
    rw [hdone] at this
    cases this

theorem Ok.runs (h : m.Ok) (acts : List Action)
    (hc : ∀ pre a post, acts = pre ++ a :: post → ∀ m₁ ∈ runs pre m, m₁.Careful a)
    (hm : runs acts m = some m') : m'.Ok := by
  induction acts generalizing m with
  | nil =>
    obtain rfl := Option.some.inj hm
    exact h
  | cons a acts ih =>
    obtain ⟨m₁, hm₁, hm⟩ := Option.bind_eq_some_iff.mp hm
    refine ih (h.act (hc [] a acts rfl m rfl) hm₁) (fun pre b post heq m₂ hm₂ => ?_) hm
    refine hc (a :: pre) b post (by rw [heq]; rfl) m₂ ?_
    exact Option.bind_eq_some_iff.mpr ⟨m₁, hm₁, hm₂⟩

/-- In a run whose steps are all careful, works run once. -/
theorem runs_once (acts : List Action)
    (hc : ∀ pre a post, acts = pre ++ a :: post → ∀ m ∈ runs pre {}, m.Careful a)
    (pre post : List Action) (heq : acts = pre ++ post) (m : WorkManager)
    (hm : runs pre {} = some m) : m.RunsOnce := by
  refine (Ok.create.runs pre (fun pre' a post' heq' => ?_) hm).runsOnce
  exact hc pre' a (post' ++ post) (by rw [heq, heq']; simp)

/-! ## Two trees -/

instance : Decidable (m.Quiet w) := by
  unfold Quiet
  infer_instance

instance decidableOpCareful : (o : Op) → Decidable (Op.Careful m o)
  | .addWork (some parent) _ _ _ => inferInstanceAs (Decidable (.run parent ∉ m.posted))
  | .addWork none _ _ _ => isTrue trivial
  | .advanceChildren => inferInstanceAs (Decidable (∀ c ∈ m.mChildren, m.Quiet c.2))
  | .clearChildren _ | .eraseChild _ _ => isTrue trivial

instance decidableOpsCareful : (os : List Op) → (m : WorkManager) → Decidable (OpsCareful os m)
  | [], _ => isTrue trivial
  | o :: os, m =>
    have := decidableOpsCareful os
    inferInstanceAs (Decidable (Op.Careful m o ∧ ∀ m' ∈ m.op o, OpsCareful os m'))

instance {onNotify : List Op} : Decidable (m.NotifyCareful w onNotify) := by
  unfold NotifyCareful
  cases (m.work w).mParent <;> infer_instance

instance {cb : Callbacks} : Decidable (m.GoOnCareful w cb) := by
  unfold GoOnCareful
  cases (m.work w).mState <;> infer_instance

instance : DecidablePred m.Careful
  | .run w onRun _ =>
    inferInstanceAs (Decidable ((m.work w).alive = true → OpsCareful onRun (m.enter w)))
  | .complete w ec cb =>
    inferInstanceAs (Decidable ((m.work w).alive = true →
      (ec = false → OpsCareful cb.onSuccess (m.completing w ec)) ∧
        ∀ m' ∈ m.completed w ec cb, m'.GoOnCareful w cb))
  | .retry w onReset =>
    inferInstanceAs (Decidable (OpsCareful onReset (m.retrying w) ∧
      ∀ m' ∈ ops onReset (m.retrying w), m'.Quiet w))
  | .call os => inferInstanceAs (Decidable (OpsCareful os m))
  | .destroy _ => isTrue trivial

/-- A work with two children, one of which has a child. -/
def toyTree : List Op :=
  [.addWork none "P" 5 false, .addWork (some 0) "A" 5 false, .addWork (some 1) "B" 5 false,
    .addWork (some 0) "C" 5 false, .advanceChildren]

/-- `B` and `C` run, then they complete. The queue is executed in order. -/
def toyTwice : List Action :=
  [.call toyTree, .run 2 [] (some false), .run 3 [] (some false), .complete 2 false {},
    .complete 3 false {}, .run 1 [] (some false), .run 1 [] (some false)]

/-- `B` and `A` succeed before `C` completes. `C` fails and is tried again. -/
def toyOnce : List Action :=
  [.call toyTree, .run 2 [] (some false), .run 3 [] (some true), .complete 2 false {},
    .run 1 [] (some false), .complete 1 false {}, .complete 3 true {}, .retry 3 [],
    .run 3 [] (some false), .complete 3 false {}, .run 0 [] (some false), .complete 0 false {}]

/-- All steps are careful, and the tree succeeds. -/
theorem runs_once_toyOnce :
    ((runs toyOnce {}).map fun m => (m.work 0).mState) = some .WORK_SUCCESS ∧
    (∀ pre a post, toyOnce = pre ++ a :: post → ∀ m ∈ runs pre {}, m.Careful a) ∧
    ∀ m, runs toyOnce {} = some m → m.RunsOnce := by
  have hcheck : ∀ k ∈ List.range toyOnce.length, ∀ a ∈ toyOnce[k]?,
      ∀ m ∈ runs (toyOnce.take k) {}, m.Careful a := by
    decide +kernel
  have hcareful (pre : List Action) (a : Action) (post : List Action)
      (heq : toyOnce = pre ++ a :: post) : ∀ m ∈ runs pre {}, m.Careful a := by
    have h := hcheck pre.length (by simp [heq]) a (by simp [heq])
    rw [heq, List.take_left] at h
    exact h
  exact ⟨by decide +kernel, hcareful, fun m hm =>
    runs_once toyOnce hcareful toyOnce [] (by simp) m hm⟩

/-- When `C` completes, `A` is advanced again before its run has been executed. It runs twice. -/
theorem advanced_twice : ∃ m, runs toyTwice {} = some m ∧ ¬ m.RunsOnce := by
  have hlast : ((runs toyTwice {}).map fun m => m.log.drop (m.log.length - 2)) =
      some [.onRun 1 true, .onRun 1 true] := by
    decide +kernel
  obtain ⟨m, hm, hlog⟩ := Option.map_eq_some_iff.mp hlast
  have heq : m.log = m.log.take (m.log.length - 2) ++ [.onRun 1 true, .onRun 1 true] := by
    rw [← hlog, List.take_append_drop]
  refine ⟨m, hm, fun h => ?_⟩
  obtain ⟨z, hz, -⟩ := h.entered 1 _ _ [] _ [] heq rfl rfl
  cases hz

end WorkManager

end SmartCore.Works
