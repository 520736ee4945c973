
/-! The messages of the task service: tasks, their jobs and transactions, and
the TCC states. -/

namespace Tarantula

/-- The `TCC_*` constants. A wire value outside them is kept as `unknown`. -/
inductive TccState
  | reserving | confirmed | canceled | finishing | finished
  | transactionTimeout | jobTimeout | taskClear
  | unknown (code : Nat)
  deriving DecidableEq, Repr

structure Meta where
  ringPrefix : Nat
  taskId : Nat
  jobId : Nat
  id : Nat
  nodeId : String
  tag : String
  name : String
  timeout : Nat
  retries : Nat
  state : TccState
  description : String
  deriving DecidableEq, Repr

instance : Inhabited Meta := ⟨⟨0, 0, 0, 0, "", "", "", 0, 0, .unknown 0, ""⟩⟩

structure Transaction where
  mt : Meta
  deriving DecidableEq, Repr, Inhabited

structure Job where
  mt : Meta
  transactions : List Transaction
  deriving DecidableEq, Repr, Inhabited

structure Task where
  mt : Meta
  validator : Option Job
  jobs : List Job
  deriving DecidableEq, Repr

/-- The validator, when there is one, followed by the jobs. -/
def Task.allJobs (t : Task) : List Job := t.validator.toList ++ t.jobs

def Job.ids (job : Job) : List Nat := job.transactions.map (·.mt.id)

def Job.mapMeta (f : Meta → Meta) (job : Job) : Job :=
  { job with transactions := job.transactions.map fun tc => { tc with mt := f tc.mt } }

/-- A write to the `State` of one transaction object of the job. -/
def Job.setState (job : Job) (i : Nat) (st : TccState) : Job :=
  { job with transactions := job.transactions.modify i fun tc => { tc with mt.state := st } }

end Tarantula
