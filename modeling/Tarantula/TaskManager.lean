import Mathlib.Logic.Function.Basic
import Tarantula.ExtMap
import Tarantula.Protocol

/-! The coordinator loop `TaskManager.Wait` and what it calls. One iteration is
one partial step: `none` is a nil dereference or an index out of range, which
stops the process. Job objects live in a heap, since the task, the job resource
and the timer callbacks all hold pointers to the same object. -/

namespace Tarantula

abbrev Ref := Nat

/-- What the callback `p` of a timer resends: the request of the transaction
object it captured, given as a job object and a position in it. -/
inductive Retrying
  | reserve (job : Ref) (tc : Nat)
  | finish (job : Ref) (tc : Nat)
  deriving DecidableEq, Repr

structure Timeout where
  d : Nat
  r : Nat
  p : Option Retrying
  deriving DecidableEq, Repr

structure TransactionResource where
  resource : Nat
  confirmed : Nat
  finished : Nat
  canceled : Bool
  retried : Nat
  deriving DecidableEq, Repr

structure JobResource where
  resource : Ref
  joining : IdMap TransactionResource
  joinParties : Nat
  confirmed : Nat
  canceled : Bool

structure TaskResource where
  mt : Meta
  validator : Option Ref
  jobs : List Ref
  revision : Nat
  pending : List Ref
  jobIndex : Nat
  canceled : Bool
  deriving DecidableEq, Repr

/-- What an iteration does to the outside (`go m.s.run...`), and the calls and
reports a property of a run speaks about. -/
inductive Act
  | started (job : Nat)
  | askReserve (tc : Meta)
  | askFinish (tc : Meta)
  | received (report : Meta)
  | confirmed (job : Nat)
  | canceled (job : Nat)
  | finished (job : Nat)
  | stopped (job : Nat)
  | ended (task : Nat)
  | updateTask (task : Nat)
  deriving DecidableEq, Repr

/-- `jobs` are the jobs handed to `m.jobs` and not yet received. The log has the
latest act first. -/
structure TaskManager where
  trs : IdMap TaskResource
  tjs : IdMap JobResource
  tms : IdMap Timeout
  heap : Ref → Job
  next : Ref
  jobs : List Ref
  log : List Act

def TaskManager.empty : TaskManager :=
  { trs := ∅, tjs := ∅, tms := ∅, heap := fun _ => default, next := 0, jobs := [], log := [] }

/-- The key under which `Wait` looks for the timer of a timeout. -/
def Meta.timerKey (mt : Meta) : Nat := if mt.state = .jobTimeout then mt.jobId else mt.id

/-- A message received by one of the channels of `Wait`. `loaded` is what
`load` finds for the task, should the iteration reload it. -/
inductive Event
  | recovery (taskId : Nat) (loaded : Option (Task × Nat))
  | task (task : Task)
  | job (i : Nat)
  | update (mt : Meta) (loaded : Option (Task × Nat))

namespace JobResource

def cancel (j : JobResource) (tc : Meta) : Option JobResource :=
  (j.joining[tc.id]?).map fun t =>
    { j with canceled := true, joining := j.joining.insert tc.id { t with canceled := true } }

def count (j : JobResource) (id : Nat) (t : TransactionResource) : JobResource :=
  { j with joining := j.joining.insert id t, confirmed := j.confirmed + 1 }

/-- The job resource and job object after `join`, and its verdict. -/
def join (j : JobResource) (job : Job) (mt : Meta) : Option (JobResource × Job × Bool) :=
  match mt.state with
  | .confirmed =>
    (j.joining[mt.id]?).map fun t =>
      if 0 < t.confirmed then (j, job, false)
      else (j.count mt.id { t with confirmed := t.confirmed + 1 },
        job.setState t.resource .confirmed, decide (j.joinParties = j.confirmed + 1))
  | .finished =>
    (j.joining[mt.id]?).map fun t =>
      if 0 < t.finished then (j, job, false)
      else (j.count mt.id { t with finished := t.finished + 1 },
        job.setState t.resource .finished, decide (j.joinParties = j.confirmed + 1))
  | _ => some (j, job, false)

/-- `joining` after the loop of `start`: one entry for each transaction object. -/
def joinAll (tcs : List Transaction) : IdMap TransactionResource :=
  ExtMap.insertEach (·.mt.id) (fun i _ => ⟨i, 0, 0, false, 0⟩) tcs 0 ∅

end JobResource

/-- One timer for each transaction, as the loops of `start`, `confirmed` and
`canceled` install them. -/
def armAll (p : Nat → Retrying) (tcs : List Transaction) (tms : IdMap Timeout) : IdMap Timeout :=
  ExtMap.insertEach (·.mt.id) (fun i tc => ⟨tc.mt.timeout, tc.mt.retries, some (p i)⟩) tcs 0 tms

def closeAll (tcs : List Transaction) (tms : IdMap Timeout) : IdMap Timeout :=
  ExtMap.eraseEach (·.mt.id) tcs tms

namespace TaskManager

def note (m : TaskManager) (acts : List Act) : TaskManager := { m with log := acts.reverse ++ m.log }

/-- What has been done from `m` to `m'`, the last first. -/
def acts (m m' : TaskManager) : List Act := m'.log.take (m'.log.length - m.log.length)

theorem acts_eq {m m' : TaskManager} {a : List Act} (h : m'.log = a ++ m.log) : acts m m' = a := by
  simp [acts, h]

def closeTimer (m : TaskManager) (mkey : Nat) : TaskManager := { m with tms := m.tms.erase mkey }

/-- What each of the three report branches does before it looks at the job. -/
def receive (m : TaskManager) (mt : Meta) : TaskManager := (m.note [.received mt]).closeTimer mt.id

def putJob (m : TaskManager) (key : Nat) (j : JobResource) (job : Job) : TaskManager :=
  { m with tjs := m.tjs.insert key j, heap := Function.update m.heap j.resource job }

def putTask (m : TaskManager) (key : Nat) (tr : TaskResource) : TaskManager :=
  { m with trs := m.trs.insert key tr }

def alloc (m : TaskManager) (jobs : List Job) : TaskManager :=
  { m with
    heap := fun r => if r < m.next then m.heap r else jobs.getD (r - m.next) default
    next := m.next + jobs.length }

/-- `NewTaskResource` reads `task.Jobs[0]`. -/
def newTaskResource (m : TaskManager) (task : Task) (revision : Nat) :
    Option (TaskManager × TaskResource) :=
  if task.jobs = [] then none
  else
    let v := task.validator.toList.length
    some (m.alloc task.allJobs,
      { mt := task.mt
        validator := task.validator.map fun _ => m.next
        jobs := List.range' (m.next + v) task.jobs.length
        revision := revision
        pending := []
        jobIndex := 0
        canceled := false })

def writeMeta (m : TaskManager) (ref : Ref) (f : Meta → Meta) : TaskManager :=
  { m with heap := Function.update m.heap ref { m.heap ref with mt := f (m.heap ref).mt } }

/-- `State` and `Prefix` of a job that is about to be scheduled or started. -/
def readyJob (m : TaskManager) (tr : TaskResource) (ref : Ref) : TaskManager :=
  m.writeMeta ref fun mt => { mt with state := .jobTimeout, ringPrefix := tr.mt.ringPrefix }

def schedule (m : TaskManager) (tr : TaskResource) (ref : Ref) : TaskManager :=
  { m.note [.updateTask tr.mt.id] with jobs := m.jobs ++ [ref] }

def set (m : TaskManager) (key : Nat) (tr : TaskResource) : Option TaskManager :=
  let tr := { tr with pending := tr.pending ++ tr.validator.toList ++ tr.jobs, jobIndex := 0 }
  match tr.pending[tr.jobIndex]? with
  | none => none
  | some ref => some (((m.putTask key tr).readyJob tr ref).schedule tr ref)

/-- `m.tjs[job.Meta.Id] = NewJobResource(job, tr)` followed by `m.start`. -/
def start (m : TaskManager) (ref : Ref) : TaskManager :=
  let job := (m.heap ref).mapMeta fun mt =>
    { mt with state := .reserving, ringPrefix := (m.heap ref).mt.ringPrefix }
  let j : JobResource :=
    { resource := ref
      joining := JobResource.joinAll job.transactions
      joinParties := job.transactions.length
      confirmed := 0
      canceled := false }
  let m := m.putJob job.mt.id j job
  let m := { m with
    tms := armAll (.reserve ref) job.transactions (m.tms.insert job.mt.id ⟨0, 0, none⟩) }
  m.note (.started job.mt.id :: job.transactions.map fun tc => .askReserve tc.mt)

def end_ (m : TaskManager) (key : Nat) (tr : TaskResource) : TaskManager :=
  (m.putTask key { tr with mt := { tr.mt with state := .finished } }).note
    [.updateTask tr.mt.id, .ended tr.mt.id]

/-- The deferred finish of all transactions, shared by `confirmed` and `canceled`:
new states, new timers and one `AskFinish` for each. -/
def decideAll (m : TaskManager) (key : Nat) (t : JobResource) (f : Meta → Meta) : TaskManager :=
  let ringPrefix := (m.heap t.resource).mt.ringPrefix
  let job := (m.heap t.resource).mapMeta fun mt => { f mt with ringPrefix := ringPrefix }
  let m := m.putJob key { t with confirmed := 0 } job
  let m := { m with tms := armAll (.finish t.resource) job.transactions m.tms }
  m.note (job.transactions.map fun tc => .askFinish tc.mt)

def confirmed (m : TaskManager) (key : Nat) (t : JobResource) : TaskManager :=
  (m.note [.confirmed key]).decideAll key t fun mt => { mt with state := .confirmed }

def canceled (m : TaskManager) (key : Nat) (c : Meta) (t : JobResource) : Option TaskManager :=
  match t.cancel c with
  | none => none
  | some t =>
    let taskId := (m.heap t.resource).mt.taskId
    match m.trs[taskId]? with
    | none => none
    | some tr =>
      let m := m.putTask taskId { tr with jobIndex := tr.pending.length, canceled := true }
      let m := { m with tms := closeAll (m.heap t.resource).transactions m.tms }
      some ((m.note [.canceled key]).decideAll key t fun mt =>
        { mt with state := .canceled, description := c.description })

def finished (m : TaskManager) (key : Nat) (t : JobResource) : Option TaskManager :=
  let job := m.heap t.resource
  let m := m.closeTimer job.mt.id
  match m.trs[job.mt.taskId]? with
  | none => none
  | some tr =>
    let m := (m.writeMeta t.resource fun mt => { mt with state := .finished }).note [.finished key]
    match tr.pending[tr.jobIndex + 1]? with
    | some next =>
      let tr := { tr with jobIndex := tr.jobIndex + 1 }
      some (((m.putTask job.mt.taskId tr).readyJob tr next).schedule tr next)
    | none => some (m.end_ job.mt.taskId tr)

def stop (m : TaskManager) (key : Nat) (t : JobResource) : Option TaskManager :=
  let job := m.heap t.resource
  let m := m.putJob key { t with canceled := true } job
  match m.trs[job.mt.taskId]? with
  | none => none
  | some tr =>
    let m := match tr.validator with
      | none => m
      | some v => m.writeMeta v fun mt => { mt with state := .finished }
    let m := { m with tms := closeAll job.transactions m.tms }
    some ((m.note [.stopped key]).end_ job.mt.taskId { tr with canceled := true })

/-- Running the callback `p`: the transaction object is read when it fires. -/
def retry (m : TaskManager) : Retrying → TaskManager
  | .reserve ref i =>
    m.note ((m.heap ref).transactions[i]?.toList.map fun tc => .askReserve tc.mt)
  | .finish ref i =>
    m.note ((m.heap ref).transactions[i]?.toList.map fun tc => .askFinish tc.mt)

def retried (m : TaskManager) (mt : Meta) : Option TaskManager :=
  match m.tjs[mt.jobId]? with
  | none => some m
  | some j =>
    (j.joining[mt.id]?).map fun tc =>
      let j := { j with joining := j.joining.insert mt.id { tc with retried := tc.retried + 1 } }
      { m with tjs := m.tjs.insert mt.jobId j }

/-- The timer of a job has no callback: with retries left it would be a nil call. -/
def timeout (m : TaskManager) (mkey : Nat) (mt : Meta) : Option TaskManager :=
  match m.tms[mkey]? with
  | none => some m
  | some tm =>
    if 0 < tm.d ∧ 0 < tm.r then
      match m.retried mt, tm.p with
      | some m, some p => some ({ m with tms := m.tms.insert mkey { tm with r := tm.r - 1 } }.retry p)
      | _, _ => none
    else some { m with tms := m.tms.erase mkey }

def clearResource (m : TaskManager) (rkey : Nat) : TaskManager :=
  match m.trs[rkey]? with
  | none => m
  | some tr =>
    { m with
      trs := m.trs.erase rkey
      tjs := ExtMap.eraseEach (fun r => (m.heap r).mt.id) (tr.validator.toList ++ tr.jobs) m.tjs }

/-- The second component is `none` where `reload` returns an error. -/
def reload (m : TaskManager) (taskId : Nat) (loaded : Option (Task × Nat)) :
    Option (TaskManager × Option TaskResource) :=
  match loaded with
  | none => some (m, none)
  | some (task, revision) =>
    match m.newTaskResource task revision with
    | none => none
    | some (m', tr) =>
      if tr.mt.state = .finished then some (m, none)
      else
        let tr := { tr with
          pending := (tr.validator.toList ++ tr.jobs).filter fun r => (m'.heap r).mt.state ≠ .finished }
        let m' := m'.putTask taskId tr
        match tr.pending with
        | [] => some (m', none)
        | ref :: _ =>
          some (((m'.readyJob tr ref).note [.updateTask tr.mt.id]).start ref, some tr)

/-- The switch of the updates branch, once the task is known not to be finished. -/
def handle (m : TaskManager) (mt : Meta) : Option TaskManager :=
  match mt.state with
  | .confirmed =>
    let m := m.receive mt
    match m.tjs[mt.jobId]? with
    | none => none
    | some tj =>
      match tj.join (m.heap tj.resource) mt with
      | none => none
      | some (tj, job, joined) =>
        let m := m.putJob mt.jobId tj job
        some (if joined then m.confirmed mt.jobId tj else m)
  | .canceled =>
    let m := m.receive mt
    match m.tjs[mt.jobId]? with
    | none => none
    | some tj => m.canceled mt.jobId mt tj
  | .finished =>
    let m := m.receive mt
    match m.tjs[mt.jobId]? with
    | none => none
    | some tj =>
      match tj.join (m.heap tj.resource) mt with
      | none => none
      | some (tj, job, joined) =>
        let m := m.putJob mt.jobId tj job
        if joined then m.finished mt.jobId tj else some m
  | .transactionTimeout => m.timeout mt.id mt
  | .jobTimeout =>
    match m.timeout mt.jobId mt with
    | none => none
    | some m =>
      match m.tjs[mt.jobId]? with
      | none => some m
      | some tj => m.stop mt.jobId tj
  | _ => some m

/-- The task of an update: the one in memory, or the one reloaded for it. -/
def find (m : TaskManager) (mt : Meta) (loaded : Option (Task × Nat)) :
    Option (TaskManager × Option TaskResource) :=
  match m.trs[mt.taskId]? with
  | some tr => some (m, some tr)
  | none => m.reload mt.taskId loaded

/-- One iteration of the loop of `Wait`. -/
def wait (m : TaskManager) : Event → Option TaskManager
  | .recovery taskId loaded =>
    match m.trs[taskId]? with
    | some _ => some m
    | none => (m.reload taskId loaded).map (·.1)
  | .task task =>
    match m.newTaskResource task 1 with
    | none => none
    | some (m, tr) => m.set task.mt.id tr
  | .job i =>
    match m.jobs[i]? with
    | none => some m
    | some ref =>
      let m := { m with jobs := m.jobs.eraseIdx i }
      match m.trs[(m.heap ref).mt.taskId]? with
      | none => none
      | some _ => some (m.start ref)
  | .update mt loaded =>
    if mt.state = .taskClear then some (m.clearResource mt.id)
    else
      match m.find mt loaded with
      | none => none
      | some (m, none) => some m
      | some (m, some tr) => if tr.mt.state = .finished then some m else m.handle mt

end TaskManager

end Tarantula
