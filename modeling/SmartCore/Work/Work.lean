import Mathlib.Data.List.Nodup
import Mathlib.Logic.Function.Basic
import SmartCore.Lib.Trace

/-!
# Work

Long-running activities are trees of `Work`. A work waits in WORK_PENDING until all its children
have succeeded, runs, and completes some time later. It may then be done, wait for new children, run
again, or be reset and tried again after a delay. Everything is driven by handlers posted to the
event loop, by timers, and by `advance`, which walks over the part of a tree that is pending and
posts what can go on.
-/

namespace SmartCore.Works

/-! ## Works and handlers -/

inductive State where
  | WORK_PENDING
  | WORK_RUNNING
  | WORK_SUCCESS
  | WORK_FAILURE_RETRY
  | WORK_FAILURE_RAISE
deriving DecidableEq, Repr

def State.isDone : State → Bool
  | .WORK_SUCCESS | .WORK_FAILURE_RAISE => true
  | _ => false

/-- A work. `alive` is false once the last reference to it is gone: then there is nothing left but
handlers that do nothing. -/
structure Work where
  mParent : Option ℕ := none
  mUniqueName : String := ""
  mMaxRetries : ℕ := 0
  mRetries : ℕ := 0
  mState : State := .WORK_PENDING
  mChildren : List (String × ℕ) := []
  mRetryTimer : Bool := false
  alive : Bool := false

/-- A handler in the queue of the event loop. A completion comes with its error code. -/
inductive Posted where
  | run (w : ℕ)
  | complete (w : ℕ) (ec : Bool)
deriving DecidableEq

def Posted.work : Posted → ℕ
  | .run w => w
  | .complete w _ => w

/-- What has happened. An entry of `onRun` says whether all children had succeeded. -/
inductive Entry where
  | reset (w : ℕ)
  | scheduleRun (w : ℕ)
  | scheduleFailure (w : ℕ)
  | onRun (w : ℕ) (ready : Bool)
  | complete (w : ℕ)
  | changed (w : ℕ) (old new : State)
deriving DecidableEq

def Entry.work : Entry → ℕ
  | .reset w | .scheduleRun w | .scheduleFailure w | .onRun w _ | .complete w | .changed w _ _ => w

/-- What `advance` leaves in the log for a handler it posts. -/
def Posted.entry : Posted → Entry
  | .run w => .scheduleRun w
  | .complete w _ => .scheduleFailure w

/-- The `WorkManager`, with all works there ever were and the queue of the event loop. A work is
known by the number under which it was made. -/
structure WorkManager where
  size : ℕ := 0
  work : ℕ → Work := fun _ => {}
  mChildren : List (String × ℕ) := []
  posted : List Posted := []
  log : List Entry := []

namespace WorkManager

variable (m : WorkManager)

def record (e : Entry) : WorkManager := { m with log := m.log ++ [e] }

def modifyWork (w : ℕ) (f : Work → Work) : WorkManager :=
  { m with work := Function.update m.work w (f (m.work w)) }

/-! ## Children -/

/-- The children of a work, or of the manager. -/
def childrenOf : Option ℕ → List (String × ℕ)
  | some w => (m.work w).mChildren
  | none => m.mChildren

def setChildren : Option ℕ → List (String × ℕ) → WorkManager
  | some w, cs => m.modifyWork w fun s => { s with mChildren := cs }
  | none, cs => { m with mChildren := cs }

/-- The children are in the order of their names. -/
def insertChild (name : String) (w : ℕ) : List (String × ℕ) → List (String × ℕ)
  | [] => [(name, w)]
  | c :: cs => if name < c.1 then (name, w) :: c :: cs else c :: insertChild name w cs

def eraseChild (name : String) (cs : List (String × ℕ)) : List (String × ℕ) :=
  cs.filter fun c => c.1 ≠ name

def allChildrenSuccessful (w : ℕ) : Bool :=
  (m.work w).mChildren.all fun c => decide ((m.work c.2).mState = .WORK_SUCCESS)

def anyChildRaiseFailure (w : ℕ) : Bool :=
  (m.work w).mChildren.any fun c => decide ((m.work c.2).mState = .WORK_FAILURE_RAISE)

/-! ## Posting -/

/-- `scheduleRun` and `scheduleFailure`, for a list of handlers. -/
def schedule (ps : List Posted) : WorkManager :=
  { m with posted := m.posted ++ ps, log := m.log ++ ps.map Posted.entry }

/-- What `advance` posts. It changes nothing else. The number bounds the depth of the tree. -/
def advanced : ℕ → ℕ → List Posted
  | 0, _ => []
  | n + 1, w =>
    if (m.work w).mState ≠ .WORK_PENDING then []
    else
      (m.work w).mChildren.flatMap (fun c => advanced n c.2) ++
        if m.allChildrenSuccessful w then [.run w]
        else if m.anyChildRaiseFailure w then [.complete w true]
        else []

def advance (w : ℕ) : WorkManager := m.schedule (m.advanced m.size w)

def advanceChildren : WorkManager :=
  m.schedule (m.mChildren.flatMap fun c => m.advanced m.size c.2)

/-! ## States -/

/-- A work that has been tried often enough is not tried again. -/
def limit (w : ℕ) (st : State) : State :=
  if st = .WORK_FAILURE_RETRY ∧ (m.work w).mMaxRetries ≤ (m.work w).mRetries then
    .WORK_FAILURE_RAISE
  else st

def setState (w : ℕ) (st : State) : WorkManager :=
  let st := m.limit w st
  if st ≠ (m.work w).mState then
    (m.record (.changed w (m.work w).mState st)).modifyWork w fun s => { s with mState := st }
  else m

/-- `reset`, up to the call of `onReset`. -/
def reset (w : ℕ) : WorkManager := (m.record (.reset w)).setState w .WORK_PENDING

/-- The timer is set. In another state this throws. -/
def scheduleRetry (w : ℕ) : Option WorkManager :=
  if (m.work w).mState ≠ .WORK_FAILURE_RETRY then none
  else some (m.modifyWork w fun s => { s with mRetryTimer := true })

/-! ## Callbacks

The callbacks of a work are known by what they do with the tree. -/

/-- `addWork` throws if there is a child of that name. A work that is `delayed` starts with a retry,
as `GetHistoryArchiveStateWork::onReset` has it. What else its `onReset` does comes next. -/
inductive Op where
  | addWork (parent : Option ℕ) (name : String) (maxRetries : ℕ) (delayed : Bool)
  | clearChildren (w : ℕ)
  | eraseChild (w : ℕ) (name : String)
  | advanceChildren

/-- Is there a work, or the manager, to add a child to? -/
def isAlive : Option ℕ → Bool
  | some w => (m.work w).alive
  | none => true

/-- A new work, in the map of its parent. -/
def newWork (parent : Option ℕ) (name : String) (maxRetries : ℕ) : WorkManager :=
  let w := m.size
  let m := m.modifyWork w fun _ =>
    { mParent := parent, mUniqueName := name, mMaxRetries := maxRetries, alive := true }
  { m.setChildren parent (insertChild name w (m.childrenOf parent)) with size := m.size + 1 }

def addWork (parent : Option ℕ) (name : String) (maxRetries : ℕ) (delayed : Bool) :
    Option WorkManager :=
  if m.isAlive parent = false then none
  else if name ∈ (m.childrenOf parent).map Prod.fst then none
  else
    let m' := (m.newWork parent name maxRetries).reset m.size
    if delayed then (m'.setState m.size .WORK_FAILURE_RETRY).scheduleRetry m.size else some m'

def op : Op → Option WorkManager
  | .addWork parent name maxRetries delayed => m.addWork parent name maxRetries delayed
  | .clearChildren w => if (m.work w).alive then some (m.setChildren (some w) []) else none
  | .eraseChild w name =>
    if (m.work w).alive then
      some (m.setChildren (some w) (eraseChild name (m.work w).mChildren))
    else none
  | .advanceChildren => some m.advanceChildren

def ops : List Op → WorkManager → Option WorkManager
  | [], m => some m
  | o :: os, m => (m.op o).bind (ops os)

/-! ## Handlers -/

/-- What the callbacks do while a work completes: `onSuccess` and the state it asks for,
`onFailureRetry` or `onFailureRaise`, and what the parent does in its `notify` before it advances
(as `BatchDownloadWork` does). -/
structure Callbacks where
  onSuccess : List Op := []
  result : State := .WORK_SUCCESS
  onFailure : List Op := []
  onNotify : List Op := []

/-- `WorkManagerImpl::notify`. -/
def notify (name : String) : WorkManager :=
  match m.mChildren.find? fun c => c.1 = name with
  | none => m
  | some c =>
    if (m.work c.2).mState.isDone then
      advanceChildren { m with mChildren := eraseChild name m.mChildren }
    else m.advanceChildren

def notifyParent (w : ℕ) (onNotify : List Op) : Option WorkManager :=
  match (m.work w).mParent with
  | some parent =>
    if (m.work parent).alive then (ops onNotify m).map fun m => m.advance parent else some m
  | none => some (m.notify (m.work w).mUniqueName)

/-- `run`, up to the call of `onRun`. -/
def enter (w : ℕ) : WorkManager :=
  let m := setState { m with posted := m.posted.erase (.run w) } w .WORK_RUNNING
  m.record (.onRun w (m.allChildrenSuccessful w))

/-- `onStart` and `onRun` see to it that the work completes, at most once: what they start ends with
an error code, now or later. -/
def run (w : ℕ) (onRun : List Op) (completion : Option Bool) : Option WorkManager :=
  (ops onRun (m.enter w)).map fun m =>
    { m with posted := m.posted ++ completion.toList.map (Posted.complete w) }

/-- The handler of a completion is executed. -/
def completing (w : ℕ) (ec : Bool) : WorkManager :=
  record { m with posted := m.posted.erase (.complete w ec) } (.complete w)

/-- `complete`, up to the new state. -/
def completed (w : ℕ) (ec : Bool) (cb : Callbacks) : Option WorkManager :=
  if ec then some ((m.completing w ec).setState w .WORK_FAILURE_RETRY)
  else (ops cb.onSuccess (m.completing w ec)).map fun m => m.setState w cb.result

/-- `complete`, from the new state on. -/
def goOn (w : ℕ) (cb : Callbacks) : Option WorkManager :=
  match (m.work w).mState with
  | .WORK_SUCCESS => m.notifyParent w cb.onNotify
  | .WORK_FAILURE_RETRY => (ops cb.onFailure m).bind fun m => m.scheduleRetry w
  | .WORK_FAILURE_RAISE => (ops cb.onFailure m).bind fun m => m.notifyParent w cb.onNotify
  | .WORK_PENDING => some (m.advance w)
  | .WORK_RUNNING => some (m.schedule [.run w])

def complete (w : ℕ) (ec : Bool) (cb : Callbacks) : Option WorkManager :=
  (m.completed w ec cb).bind fun m => m.goOn w cb

/-- The timer expires. -/
def retrying (w : ℕ) : WorkManager :=
  (m.modifyWork w fun s =>
    { s with mRetryTimer := false, mRetries := s.mRetries + 1 }).reset w

def retry (w : ℕ) (onReset : List Op) : Option WorkManager :=
  (ops onReset (m.retrying w)).map fun m => m.advance w

/-! ## Runs -/

/-- The event loop executes a handler or a timer expires, in any order; the rest of the program adds
works and advances them; or the last reference to a work goes. -/
inductive Action where
  | run (w : ℕ) (onRun : List Op) (completion : Option Bool)
  | complete (w : ℕ) (ec : Bool) (cb : Callbacks)
  | retry (w : ℕ) (onReset : List Op)
  | call (ops : List Op)
  | destroy (w : ℕ)

/-- Does the map of somebody hold the work? -/
def isHeld (w : ℕ) : Bool :=
  (m.mChildren.any fun c => decide (c.2 = w)) ||
    (List.range m.size).any fun p => (m.work p).alive &&
      (m.work p).mChildren.any fun c => decide (c.2 = w)

/-- `none` if this cannot happen, or if something is thrown. -/
def act : Action → Option WorkManager
  | .run w onRun completion =>
    if .run w ∉ m.posted then none
    else if (m.work w).alive then m.run w onRun completion
    else some { m with posted := m.posted.erase (.run w) }
  | .complete w ec cb =>
    if .complete w ec ∉ m.posted then none
    else if (m.work w).alive then m.complete w ec cb
    else some { m with posted := m.posted.erase (.complete w ec) }
  | .retry w onReset =>
    if (m.work w).alive && (m.work w).mRetryTimer then m.retry w onReset else none
  | .call os => ops os m
  | .destroy w =>
    if m.isHeld w then none else some (m.modifyWork w fun s => { s with alive := false })

def runs : List Action → WorkManager → Option WorkManager
  | [], m => some m
  | a :: acts, m => (m.act a).bind (runs acts)

end WorkManager

end SmartCore.Works
