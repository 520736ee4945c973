import Mathlib.Data.List.Nodup
import Tarantula.Snowflake
import Tarantula.TaskBuilder

/-! `Issue` at a postoffice. It numbers the task, its validator, the jobs and their transactions with
ids from the generator of the node, and writes the ring token of the task id into all of them before
the task is created and set up. -/

namespace Tarantula

def jobTimeoutSeconds : Nat := 3600

def transactionTimeoutSeconds : Nat := 1800

def tccRetryMax : Nat := 3

/-- A response with the error that comes with it. -/
structure IssueReply where
  successful : Bool
  message : String
  err : Option String
  deriving DecidableEq, Repr

/-- What `Issue` gets from the rest of the node in one call: the ids that the generator hands out, one
after the other, the tokens of the ring, and the replies of `runCreate` and of the setup at the
owner. -/
structure IssueEnv where
  tid : Nat → UInt64
  ringToken : Bytes → UInt32
  created : IssueReply
  setUp : IssueReply

inductive Issued (μ : Type)
  | panics -- a Meta is missing
  | failed (message : String)
  | issued (task : Wire.Task μ) (reply : IssueReply)
  deriving DecidableEq, Repr

namespace Wire

variable {μ : Type}

/-- The loop over the transactions of a job, from the `n`th id on, with the number of the next id. -/
def numberTransactions (tid : Nat → UInt64) (taskId jobId : Nat) :
    List (Transaction μ) → Nat → Option (List (Transaction μ) × Nat)
  | [], n => some ([], n)
  | t :: ts, n =>
    match t.mt with
    | none => none
    | some mt =>
      let mt := { mt with
        taskId := taskId, jobId := jobId, id := (tid n).toNat
        timeout := transactionTimeoutSeconds, retries := tccRetryMax }
      (numberTransactions tid taskId jobId ts (n + 1)).map fun (ts, n) => ({ t with mt := some mt } :: ts, n)

def numberJob (tid : Nat → UInt64) (taskId : Nat) (job : Job μ) (n : Nat) : Option (Job μ × Nat) :=
  match job.mt with
  | none => none
  | some mt =>
    let mt := { mt with taskId := taskId, id := (tid n).toNat, timeout := jobTimeoutSeconds }
    (numberTransactions tid taskId mt.id job.transactions (n + 1)).map fun (ts, n) => (⟨some mt, ts⟩, n)

def numberJobs (tid : Nat → UInt64) (taskId : Nat) : List (Job μ) → Nat → Option (List (Job μ) × Nat)
  | [], n => some ([], n)
  | job :: jobs, n =>
    (numberJob tid taskId job n).bind fun (job, n) =>
      (numberJobs tid taskId jobs n).map fun (jobs, n) => (job :: jobs, n)

/-- `HashRequest` writes the prefix into every Meta, which are all there by then. -/
def Job.setPrefix (ringPrefix : Nat) (job : Job μ) : Job μ :=
  ⟨job.mt.map ({ · with ringPrefix := ringPrefix }),
    job.transactions.map fun t => { t with mt := t.mt.map ({ · with ringPrefix := ringPrefix }) }⟩

def Task.setPrefix (ringPrefix : Nat) (task : Task μ) : Task μ :=
  ⟨task.mt.map ({ · with ringPrefix := ringPrefix }), task.validator.map (·.setPrefix ringPrefix),
    task.jobs.map (·.setPrefix ringPrefix)⟩

end Wire

namespace IssueEnv

variable {μ : Type} (env : IssueEnv)

/-- `HashRequest`, `runCreate` and `runSetup` for a task that is numbered. -/
def submit (taskId : Nat) (task : Wire.Task μ) : Issued μ :=
  if taskId = 0 then .failed "task id should be more than zero uint64"
  else
    let ringPrefix := (env.ringToken (beBytes 8 taskId)).toNat
    let task := task.setPrefix ringPrefix
    match env.created.err with
    | some err => .failed err
    | none =>
      if env.created.successful = false then .failed ("task create failed: " ++ env.created.message)
      else if ringPrefix = 0 then .failed "prefix must be assigned"
      else
        match env.setUp.err with
        | some err => .failed err
        | none => .issued task env.setUp

/-- The validator is numbered before the jobs are counted. -/
def issue (task : Wire.Task μ) : Issued μ :=
  match task.mt with
  | none => .panics
  | some mt =>
    let taskId := (env.tid 0).toNat
    let mt := { mt with id := taskId }
    match Wire.numberJobs env.tid taskId task.validator.toList 1 with
    | none => .panics
    | some (validator, n) =>
      if task.jobs.length = 0 then .failed "one more task jobs reqiured"
      else
        match Wire.numberJobs env.tid taskId task.jobs n with
        | none => .panics
        | some (jobs, _) => env.submit taskId ⟨some mt, validator.head?, jobs⟩

/-- Nothing but a missing Meta keeps the task from being issued. -/
def Accepts (task : Wire.Task μ) : Prop :=
  task.jobs ≠ [] ∧ env.tid 0 ≠ 0 ∧ env.created.err = none ∧ env.created.successful = true ∧
    env.ringToken (beBytes 8 (env.tid 0).toNat) ≠ 0 ∧ env.setUp.err = none

end IssueEnv

namespace Wire

variable {μ : Type}

def Job.metas (job : Job μ) : List Meta := job.mt.toList ++ job.transactions.flatMap (·.mt.toList)

def Task.metas (task : Task μ) : List Meta := task.mt.toList ++ task.allJobs.flatMap (·.metas)

def Job.size (job : Job μ) : Nat := job.transactions.length + 1

def Task.size (task : Task μ) : Nat := (task.allJobs.map Job.size).sum + 1

/-- The job and its transactions name their parents. -/
def Job.Nested (taskId : Nat) (job : Job μ) : Prop :=
  ∃ mt, job.mt = some mt ∧ mt.taskId = taskId ∧
    ∀ t ∈ job.transactions, ∃ m, t.mt = some m ∧ m.taskId = taskId ∧ m.jobId = mt.id

def Task.Nested (task : Task μ) : Prop :=
  ∃ mt, task.mt = some mt ∧ ∀ job ∈ task.allJobs, job.Nested mt.id

/-- Every part has the ring token of the task id. -/
def Task.Prefixed (ringToken : Bytes → UInt32) (task : Task μ) : Prop :=
  ∃ mt, task.mt = some mt ∧ ∀ m ∈ task.metas, m.ringPrefix = (ringToken (beBytes 8 mt.id)).toNat

def Job.Complete (job : Job μ) : Prop := job.mt.isSome ∧ ∀ t ∈ job.transactions, t.mt.isSome

end Wire

def drawn (tid : Nat → UInt64) (n k : Nat) : List Nat := (List.range' n k).map fun i => (tid i).toNat

theorem drawn_succ (tid : Nat → UInt64) (n k : Nat) :
    drawn tid n (k + 1) = (tid n).toNat :: drawn tid (n + 1) k := by
  rw [drawn, List.range'_succ]
  rfl

theorem drawn_add (tid : Nat → UInt64) (n k l : Nat) :
    drawn tid n (k + l) = drawn tid n k ++ drawn tid (n + k) l := by
  rw [drawn, drawn, drawn, ← List.map_append, List.range'_append_1]

namespace Wire

section Numbered

variable {μ : Type} {tid : Nat → UInt64} {taskId jobId n n' : Nat}

theorem numberTransactions_isSome_iff {ts : List (Transaction μ)} :
    (numberTransactions tid taskId jobId ts n).isSome ↔ ∀ t ∈ ts, t.mt.isSome := by
  induction ts generalizing n with
  | nil => simp [numberTransactions]
  | cons t ts ih =>
    rw [numberTransactions, List.forall_mem_cons]
    cases t.mt with
    | none => simp
    | some mt => simp [ih]

theorem numberTransactions_some {ts ts' : List (Transaction μ)}
    (h : numberTransactions tid taskId jobId ts n = some (ts', n')) :
    n' = n + ts.length ∧ (ts'.flatMap (·.mt.toList)).map (·.id) = drawn tid n ts.length ∧
      ∀ t ∈ ts', ∃ m, t.mt = some m ∧ m.taskId = taskId ∧ m.jobId = jobId := by
  induction ts generalizing n ts' with
  | nil =>
    cases h
    exact ⟨rfl, rfl, by simp⟩
  | cons t ts ih =>
    rw [numberTransactions] at h
    cases hmt : t.mt with
    | none =>
      rw [hmt] at h
      cases h
    | some mt =>
      rw [hmt] at h
      obtain ⟨⟨rest, m⟩, hrest, hcons⟩ := Option.map_eq_some_iff.mp h
      obtain ⟨rfl, rfl⟩ := Prod.mk.inj hcons
      obtain ⟨hn, hids, hnames⟩ := ih hrest
      refine ⟨?_, ?_, ?_⟩
      · rw [hn, List.length_cons]
        omega
      · rw [List.length_cons, drawn_succ, ← hids]
        rfl
      · rw [List.forall_mem_cons]
        exact ⟨⟨_, rfl, rfl, rfl⟩, hnames⟩

theorem numberJob_isSome_iff {job : Job μ} : (numberJob tid taskId job n).isSome ↔ job.Complete := by
  rw [numberJob, Job.Complete]
  cases job.mt with
  | none => simp
  | some mt => simp [numberTransactions_isSome_iff]

theorem numberJob_some {job job' : Job μ} (h : numberJob tid taskId job n = some (job', n')) :
    n' = n + job.size ∧ job'.metas.map (·.id) = drawn tid n job.size ∧ job'.Nested taskId := by
  rw [numberJob] at h
  cases hmt : job.mt with
  | none =>
    rw [hmt] at h
    cases h
  | some mt =>
    rw [hmt] at h
    obtain ⟨⟨ts, m⟩, hts, hjob⟩ := Option.map_eq_some_iff.mp h
    obtain ⟨rfl, rfl⟩ := Prod.mk.inj hjob
    obtain ⟨hn, hids, hnames⟩ := numberTransactions_some hts
    refine ⟨?_, ?_, ⟨_, rfl, rfl, hnames⟩⟩
    · rw [hn, Job.size]
      omega
    · rw [Job.metas, Job.size, drawn_succ, ← hids]
      rfl

theorem numberJobs_isSome_iff {jobs : List (Job μ)} :
    (numberJobs tid taskId jobs n).isSome ↔ ∀ job ∈ jobs, job.Complete := by
  induction jobs generalizing n with
  | nil => simp [numberJobs]
  | cons job jobs ih =>
    have hjob : (numberJob tid taskId job n).isSome ↔ job.Complete := numberJob_isSome_iff
    rw [numberJobs, List.forall_mem_cons, ← hjob]
    cases numberJob tid taskId job n with
    | none => simp
    | some r => simp [ih]

theorem numberJobs_some {jobs jobs' : List (Job μ)} (h : numberJobs tid taskId jobs n = some (jobs', n')) :
    n' = n + (jobs.map Job.size).sum ∧
      (jobs'.flatMap (·.metas)).map (·.id) = drawn tid n (jobs.map Job.size).sum ∧
      jobs'.length = jobs.length ∧ ∀ job ∈ jobs', job.Nested taskId := by
  induction jobs generalizing n jobs' with
  | nil =>
    cases h
    exact ⟨rfl, rfl, rfl, by simp⟩
  | cons job jobs ih =>
    rw [numberJobs] at h
    obtain ⟨⟨job', m⟩, hjob, h⟩ := Option.bind_eq_some_iff.mp h
    obtain ⟨⟨rest, m'⟩, hrest, hcons⟩ := Option.map_eq_some_iff.mp h
    obtain ⟨rfl, rfl⟩ := Prod.mk.inj hcons
    obtain ⟨rfl, hids, hnested⟩ := numberJob_some hjob
    obtain ⟨hn, hids', hlen, hnested'⟩ := ih hrest
    refine ⟨?_, ?_, ?_, ?_⟩
    · rw [hn, List.map_cons, List.sum_cons]
      omega
    · rw [List.flatMap_cons, List.map_append, hids, hids', List.map_cons, List.sum_cons, drawn_add]
    · rw [List.length_cons, hlen, List.length_cons]
    · rw [List.forall_mem_cons]
      exact ⟨hnested, hnested'⟩

end Numbered

section Prefix

variable {μ : Type}

theorem Job.metas_setPrefix (p : Nat) (job : Job μ) :
    (job.setPrefix p).metas = job.metas.map ({ · with ringPrefix := p }) := by
  simp only [Job.metas, Job.setPrefix, Option.toList_map, List.flatMap_map, List.map_append, List.map_flatMap]

theorem Task.allJobs_setPrefix (p : Nat) (task : Task μ) :
    (task.setPrefix p).allJobs = task.allJobs.map (·.setPrefix p) := by
  simp only [Task.allJobs, Task.setPrefix, Option.toList_map, List.map_append]

theorem Task.metas_setPrefix (p : Nat) (task : Task μ) :
    (task.setPrefix p).metas = task.metas.map ({ · with ringPrefix := p }) := by
  simp only [Task.metas, Task.allJobs_setPrefix, List.flatMap_map, Job.metas_setPrefix, List.map_append,
    List.map_flatMap]
  rw [Task.setPrefix, Option.toList_map]

theorem Job.Nested.setPrefix {taskId : Nat} {job : Job μ} (h : job.Nested taskId) (p : Nat) :
    (job.setPrefix p).Nested taskId := by
  obtain ⟨mt, hmt, htask, hnames⟩ := h
  refine ⟨{ mt with ringPrefix := p }, ?_, htask, ?_⟩
  · rw [Job.setPrefix, hmt]
    rfl
  · intro t ht
    obtain ⟨old, hold, rfl⟩ := List.mem_map.mp ht
    obtain ⟨m, hm, htask', hjob⟩ := hnames old hold
    refine ⟨{ m with ringPrefix := p }, ?_, htask', hjob⟩
    rw [hm]
    rfl

end Prefix

end Wire

namespace IssueEnv

variable {μ : Type} {env : IssueEnv} {task : Wire.Task μ}

theorem submit_issued {taskId : Nat} {task task' : Wire.Task μ} {reply : IssueReply}
    (h : env.submit taskId task = .issued task' reply) :
    task' = task.setPrefix (env.ringToken (beBytes 8 taskId)).toNat ∧ taskId ≠ 0 ∧ env.created.err = none ∧
      env.created.successful = true ∧ (env.ringToken (beBytes 8 taskId)).toNat ≠ 0 ∧
        env.setUp.err = none := by
  unfold submit at h
  split at h
  · cases h
  · next hid =>
    dsimp only at h
    split at h
    · cases h
    · next hcreated =>
      split at h
      · cases h
      · next hsucc =>
        split at h
        · cases h
        · next htoken =>
          split at h
          · cases h
          · next hsetup =>
            cases h
            exact ⟨rfl, hid, hcreated, by simpa using hsucc, htoken, hsetup⟩

theorem submit_of_accepts (h : env.Accepts task) (numbered : Wire.Task μ) :
    env.submit (env.tid 0).toNat numbered =
      .issued (numbered.setPrefix (env.ringToken (beBytes 8 (env.tid 0).toNat)).toNat) env.setUp := by
  obtain ⟨-, hid, hcreated, hsucc, htoken, hsetup⟩ := h
  have hid' : (env.tid 0).toNat ≠ 0 := fun h₀ => hid (UInt64.toNat_inj.mp h₀)
  have htoken' : (env.ringToken (beBytes 8 (env.tid 0).toNat)).toNat ≠ 0 :=
    fun h₀ => htoken (UInt32.toNat_inj.mp h₀)
  rw [submit, if_neg hid']
  simp [hcreated, hsucc, htoken', hsetup]

theorem submit_ne_panics (taskId : Nat) (numbered : Wire.Task μ) : env.submit taskId numbered ≠ .panics := by
  unfold submit
  split
  · simp
  · dsimp only
    split
    · simp
    · split
      · simp
      · split
        · simp
        · split <;> simp

/-- Where no Meta is missing, every part gets its own id and the names of its parents. -/
theorem issue_complete (env : IssueEnv) (hmt : task.mt.isSome) (hall : ∀ job ∈ task.allJobs, job.Complete) :
    ∃ numbered : Wire.Task μ, (∃ mt, numbered.mt = some mt ∧ mt.id = (env.tid 0).toNat) ∧
      numbered.metas.map (·.id) = drawn env.tid 0 task.size ∧
      (∀ job ∈ numbered.allJobs, job.Nested (env.tid 0).toNat) ∧
      env.issue task = if task.jobs = [] then .failed "one more task jobs reqiured"
        else env.submit (env.tid 0).toNat numbered := by
  obtain ⟨mt, hmt⟩ := Option.isSome_iff_exists.mp hmt
  have hv : ∀ job ∈ task.validator.toList, job.Complete := fun job h => hall job (List.mem_append_left _ h)
  have hj : ∀ job ∈ task.jobs, job.Complete := fun job h => hall job (List.mem_append_right _ h)
  have hnum : ∀ (jobs : List (Wire.Job μ)) (n : Nat), (∀ job ∈ jobs, job.Complete) →
      ∃ r, Wire.numberJobs env.tid (env.tid 0).toNat jobs n = some r :=
    fun jobs n h => Option.isSome_iff_exists.mp (Wire.numberJobs_isSome_iff.mpr h)
  obtain ⟨⟨validator, n⟩, hvalidator⟩ := hnum task.validator.toList 1 hv
  obtain ⟨⟨jobs, n'⟩, hjobs⟩ := hnum task.jobs n hj
  obtain ⟨rfl, hvids, hvlen, hvnested⟩ := Wire.numberJobs_some hvalidator
  obtain ⟨-, hjids, -, hjnested⟩ := Wire.numberJobs_some hjobs
  have hhead : validator.head?.toList = validator := by
    match validator, hvlen with
    | [], _ => rfl
    | [v], _ => rfl
    | v :: w :: rest, hlen =>
      cases hval : task.validator <;> simp [hval] at hlen
  have hallJobs : (⟨some { mt with id := (env.tid 0).toNat }, validator.head?, jobs⟩ : Wire.Task μ).allJobs =
      validator ++ jobs := by rw [Wire.Task.allJobs, hhead]
  refine ⟨⟨some { mt with id := (env.tid 0).toNat }, validator.head?, jobs⟩, ⟨_, rfl, rfl⟩, ?_, ?_, ?_⟩
  · rw [Wire.Task.metas, hallJobs, Wire.Task.size, Wire.Task.allJobs, List.flatMap_append, List.map_append,
      List.map_append, hvids, hjids, List.map_append, List.sum_append, drawn_succ, drawn_add]
    rfl
  · intro job hjob
    rw [hallJobs] at hjob
    rcases List.mem_append.mp hjob with hjob | hjob
    · exact hvnested job hjob
    · exact hjnested job hjob
  · rw [issue, hmt]
    dsimp only
    rw [hvalidator]
    dsimp only
    rw [hjobs]
    simp only [List.length_eq_zero_iff]

theorem issue_incomplete (h : task.mt = none ∨ ∃ vb, task.validator = some vb ∧ ¬ vb.Complete) :
    env.issue task = .panics := by
  rw [issue]
  cases hmt : task.mt with
  | none => rfl
  | some mt =>
    dsimp only
    rcases h with hnone | ⟨vb, hvb, hnot⟩
    · rw [hmt] at hnone
      cases hnone
    · cases hnum : Wire.numberJobs env.tid (env.tid 0).toNat task.validator.toList 1 with
      | none => rfl
      | some r =>
        have hall := Wire.numberJobs_isSome_iff.mp (Option.isSome_iff_exists.mpr ⟨r, hnum⟩)
        exact absurd (hall vb (by simp [hvb])) hnot

end IssueEnv

section Buildable

variable {μ : Type}

/-- What is asked of a call of `Issue`. -/
def IssueEnv.Issues (env : IssueEnv) (task : Wire.Task μ) : Prop :=
  env.issue task ≠ .panics ∧ ∀ task' reply, env.issue task = .issued task' reply →
    (task'.metas.map (·.id)).Nodup ∧ task'.Nested ∧ task'.Prefixed env.ringToken

/-- A task without missing parts is issued with the ids of the generator. -/
theorem issues_iff_nodup {env : IssueEnv} {task : Wire.Task μ} (hmt : task.mt.isSome)
    (hall : ∀ job ∈ task.allJobs, job.Complete) :
    env.Issues task ↔ (env.Accepts task → (drawn env.tid 0 task.size).Nodup) := by
  obtain ⟨numbered, ⟨mt, hnmt, hid⟩, hids, hnested, hissue⟩ := IssueEnv.issue_complete env hmt hall
  have hprefixed : ∀ p, ((numbered.setPrefix p).metas.map (·.id)) = drawn env.tid 0 task.size := by
    intro p
    rw [Wire.Task.metas_setPrefix, List.map_map, ← hids]
    rfl
  rw [IssueEnv.Issues, hissue]
  constructor
  · intro ⟨_, hissued⟩ hacc
    rw [if_neg hacc.1] at hissued
    have hnodup := (hissued _ _ (IssueEnv.submit_of_accepts hacc numbered)).1
    rwa [hprefixed] at hnodup
  · intro hnodup
    by_cases hjobs : task.jobs = []
    · simp [hjobs]
    · rw [if_neg hjobs]
      refine ⟨IssueEnv.submit_ne_panics _ _, fun task' reply hsub => ?_⟩
      obtain ⟨rfl, hid₀, hcreated, hsucc, htoken, hsetup⟩ := IssueEnv.submit_issued hsub
      have hid₁ : env.tid 0 ≠ 0 := fun h₀ => hid₀ (by rw [h₀]; rfl)
      have htoken₁ : env.ringToken (beBytes 8 (env.tid 0).toNat) ≠ 0 := fun h₀ => htoken (by rw [h₀]; rfl)
      refine ⟨?_, ⟨{ mt with ringPrefix := (env.ringToken (beBytes 8 (env.tid 0).toNat)).toNat }, ?_, ?_⟩,
        ⟨{ mt with ringPrefix := (env.ringToken (beBytes 8 (env.tid 0).toNat)).toNat }, ?_, ?_⟩⟩
      · rw [hprefixed]
        exact hnodup ⟨hjobs, hid₁, hcreated, hsucc, htoken₁, hsetup⟩
      · rw [Wire.Task.setPrefix, hnmt]
        rfl
      · intro job hjob
        rw [Wire.Task.allJobs_setPrefix] at hjob
        obtain ⟨old, hold, rfl⟩ := List.mem_map.mp hjob
        have hname : ({ mt with
            ringPrefix := (env.ringToken (beBytes 8 (env.tid 0).toNat)).toNat } : Meta).id =
            (env.tid 0).toNat := hid
        rw [hname]
        exact (hnested old hold).setPrefix _
      · rw [Wire.Task.setPrefix, hnmt]
        rfl
      · intro m hm
        rw [Wire.Task.metas_setPrefix] at hm
        obtain ⟨old, hold, rfl⟩ := List.mem_map.mp hm
        rw [← hid]

theorem drawn_nodup {tid : Nat → UInt64} {nodeId epochStart : Int64} (hn : 0 ≤ nodeId ∧ nodeId ≤ 1023)
    {clock : Nat → Int64}
    (hc : ∀ i, epochStart.toInt ≤ (clock i).toInt ∧ (clock i).toInt < epochStart.toInt + 2 ^ 41)
    (hmono : ∀ i, clock i ≤ clock (i + 1)) {n k size : Nat} {ids : List Int64}
    (hsub : ids.Sublist (Snowflake.ids n (.new nodeId epochStart) (Snowflake.readings clock k)))
    (hids : drawn tid 0 size = ids.map (·.toUInt64.toNat)) : (drawn tid 0 size).Nodup := by
  have hlt := (Snowflake.pairwise_ids_of_monotone hn hc hmono n k).sublist hsub
  rw [hids]
  apply List.Nodup.map
  · intro x y hxy
    have hbits : x.toUInt64 = y.toUInt64 := UInt64.toNat_inj.mp hxy
    cases x
    cases y
    exact congrArg Int64.ofUInt64 hbits
  · exact hlt.imp fun h heq => by
      rw [heq] at h
      exact Int64.lt_irrefl h

/-- A task that was built with no Meta of a job or a transaction missing is issued as it should be
exactly when the task has a Meta, there was a call of `Validator`, and the generator hands out distinct
ids, as it does while the clock does not go back, to whomever it hands out others meanwhile. -/
theorem buildable_task_issues_iff {mt : Option Meta} {calls : List (BuildCall μ)} {b : TaskBuilder μ}
    (hrun : TaskBuilder.run mt calls = some b) (hg : BuildCall.Given calls) (env : IssueEnv) :
    (env.Issues b.build ↔ (mt.isSome ∧ ∃ m, .validator m ∈ calls) ∧
      (env.Accepts b.build → (drawn env.tid 0 b.build.size).Nodup)) ∧
    ∀ (nodeId epochStart : Int64) (clock : Nat → Int64) (n k : Nat) (ids : List Int64),
      0 ≤ nodeId ∧ nodeId ≤ 1023 →
      (∀ i, epochStart.toInt ≤ (clock i).toInt ∧ (clock i).toInt < epochStart.toInt + 2 ^ 41) →
      (∀ i, clock i ≤ clock (i + 1)) →
      ids.Sublist (Snowflake.ids n (.new nodeId epochStart) (Snowflake.readings clock k)) →
      drawn env.tid 0 b.build.size = ids.map (·.toUInt64.toNat) →
      (drawn env.tid 0 b.build.size).Nodup := by
  obtain ⟨hmt, ⟨vb, hvb, hiff, hvts⟩, hjobs⟩ := TaskBuilder.build_given hrun hg
  refine ⟨?_, fun nodeId epochStart clock n k ids hn hc hmono hsub hids => drawn_nodup hn hc hmono hsub hids⟩
  by_cases hgiven : mt.isSome ∧ ∃ m, .validator m ∈ calls
  · have hall : ∀ job ∈ b.build.allJobs, job.Complete := by
      intro job hjob
      rw [Wire.Task.allJobs, hvb] at hjob
      rcases List.mem_cons.mp hjob with rfl | hjob
      · exact ⟨hiff.mpr hgiven.2, hvts⟩
      · exact hjobs job hjob
    rw [issues_iff_nodup (hmt ▸ hgiven.1) hall]
    simp [hgiven]
  · simp only [hgiven, false_and, iff_false]
    intro hissues
    apply hissues.1
    apply IssueEnv.issue_incomplete
    by_cases hm : mt.isSome
    · refine .inr ⟨vb, hvb, fun hcomplete => hgiven ⟨hm, hiff.mp hcomplete.1⟩⟩
    · exact .inl (hmt.trans (by simpa using hm))

section Sample

def partMeta (name : String) : Option Meta := some { (default : Meta) with name := name }

def oneJobCalls : List (BuildCall Bytes) :=
  [.job (partMeta "create"), .transaction 1, .buildTransaction 0,
    .metadata 0 (partMeta "create_gcp"), .buildJob 1]

def validatedCalls : List (BuildCall Bytes) :=
  [.validator (partMeta "check"), .transaction 0, .metadata 0 (partMeta "check_gcp"), .buildTransaction 0,
    .job (partMeta "create"), .transaction 1, .buildTransaction 1,
      .metadata 1 (partMeta "create_gcp"), .buildJob 1]

theorem oneJobCalls_given : BuildCall.Given oneJobCalls where
  validator mt h := by simp [oneJobCalls] at h
  job mt h := by
    simp only [oneJobCalls, List.mem_cons, reduceCtorEq, BuildCall.job.injEq, List.not_mem_nil, or_false] at h
    rw [h]
    rfl
  metadata tx mt h := by
    simp only [oneJobCalls, List.mem_cons, reduceCtorEq, BuildCall.metadata.injEq, List.not_mem_nil, or_false,
      false_or] at h
    rw [h.2]
    rfl
  transaction tx h := by
    simp only [oneJobCalls, List.mem_cons, reduceCtorEq, BuildCall.buildTransaction.injEq, List.not_mem_nil,
      or_false, false_or] at h
    exact ⟨partMeta "create_gcp", by simp [oneJobCalls, h]⟩

theorem validatedCalls_given : BuildCall.Given validatedCalls where
  validator mt h := by
    simp only [validatedCalls, List.mem_cons, reduceCtorEq, BuildCall.validator.injEq, List.not_mem_nil,
      or_false] at h
    rw [h]
    rfl
  job mt h := by
    simp only [validatedCalls, List.mem_cons, reduceCtorEq, BuildCall.job.injEq, List.not_mem_nil, or_false,
      false_or] at h
    rw [h]
    rfl
  metadata tx mt h := by
    simp only [validatedCalls, List.mem_cons, reduceCtorEq, BuildCall.metadata.injEq,
      List.not_mem_nil, or_false, false_or] at h
    rcases h with h | h <;> rw [h.2] <;> rfl
  transaction tx h := by
    simp only [validatedCalls, List.mem_cons, reduceCtorEq, BuildCall.buildTransaction.injEq,
      List.not_mem_nil, or_false, false_or] at h
    rcases h with rfl | rfl
    · exact ⟨partMeta "check_gcp", by simp [validatedCalls]⟩
    · exact ⟨partMeta "create_gcp", by simp [validatedCalls]⟩

def sampleIssueEnv : IssueEnv :=
  ⟨fun n => UInt64.ofNat (n + 7), fun _ => 9, ⟨true, "", none⟩, ⟨true, "", none⟩⟩

theorem buildable_task_issues_sample :
    ∃ b, TaskBuilder.run (partMeta "cluster-create") validatedCalls = some b ∧ sampleIssueEnv.Issues b.build ∧
      sampleIssueEnv.Accepts b.build := by
  obtain ⟨b, hrun⟩ := Option.isSome_iff_exists.mp
    (show (TaskBuilder.run (partMeta "cluster-create") validatedCalls).isSome by decide +kernel)
  have hsize : b.build.size = 5 := by
    have hsize : (TaskBuilder.run (partMeta "cluster-create") validatedCalls).map
      (·.build.size) = some 5 := by
      decide +kernel
    rw [hrun] at hsize
    exact Option.some.inj hsize
  have hjobs : b.build.jobs ≠ [] := by
    have hlen : (TaskBuilder.run (partMeta "cluster-create") validatedCalls).map
      (·.build.jobs.length) = some 1 := by
      decide +kernel
    rw [hrun] at hlen
    exact fun h => by simp [h] at hlen
  have hiff := (buildable_task_issues_iff hrun validatedCalls_given sampleIssueEnv).1
  refine ⟨b, hrun, hiff.mpr ⟨⟨rfl, partMeta "check", by simp [validatedCalls]⟩, fun _ => ?_⟩, ?_⟩
  · rw [hsize]
    decide +kernel
  · exact ⟨hjobs, by decide +kernel, rfl, rfl, by decide +kernel, rfl⟩

/-- A task that is built without a call of `Validator` has a validator without Meta, and its issue
panics. -/
theorem task_without_validator_panics :
    BuildCall.Given oneJobCalls ∧
      (TaskBuilder.run (partMeta "cluster-create") oneJobCalls).map (fun b => sampleIssueEnv.issue b.build) =
        some .panics :=
  ⟨oneJobCalls_given, by decide +kernel⟩

end Sample

end Buildable

end Tarantula
