import Mathlib.Data.List.Flatten
import Tarantula.Lists
import Tarantula.Progress
import Tarantula.TaskIssue

/-! The tasks that `Issue` sets up are numbered as the coordinator takes for granted: where no id is
handed out twice, the tasks of all calls make up one directory. -/

namespace Tarantula

section Unique

variable {α β : Type*}

theorem eq_of_common {f : α → List β} {l : List α} (h : (l.flatMap f).Nodup) {a b : α} (ha : a ∈ l)
    (hb : b ∈ l) {x : β} (hxa : x ∈ f a) (hxb : x ∈ f b) : a = b := by
  by_contra hne
  have : Std.Symm (Function.onFun List.Disjoint f) := ⟨fun _ _ hd _ hx hy => hd hy hx⟩
  exact (List.nodup_flatMap.mp h).2.forall ha hb hne hxa hxb

variable {p : α → Bool} {f : α → List β} {l : List α}

theorem mem_lookup {x : β} (h : x ∈ ((l.find? p).map f).getD []) : ∃ a ∈ l, p a = true ∧ x ∈ f a := by
  cases hf : l.find? p with
  | none => simp [hf] at h
  | some a =>
    rw [hf] at h
    exact ⟨a, List.mem_of_find?_eq_some hf, List.find?_some hf, h⟩

theorem find?_unique {a : α} (ha : a ∈ l) (hp : p a = true) (hu : ∀ b ∈ l, p b = true → b = a) :
    l.find? p = some a := by
  cases hf : l.find? p with
  | none => exact absurd hp (List.find?_eq_none.mp hf a ha)
  | some b => rw [hu b (List.mem_of_find?_eq_some hf) (List.find?_some hf)]

theorem nodup_lookup (h : ∀ a ∈ l, (f a).Nodup) : (((l.find? p).map f).getD []).Nodup := by
  cases hf : l.find? p with
  | none => exact List.nodup_nil
  | some a => exact h a (List.mem_of_find?_eq_some hf)

end Unique

def Job.allIds (job : Job) : List Nat := job.mt.id :: job.ids

def Task.allIds (task : Task) : List Nat := task.mt.id :: task.allJobs.flatMap Job.allIds

structure Task.Nested (task : Task) : Prop where
  jobs : task.jobs ≠ []
  taskId : ∀ job ∈ task.allJobs, job.mt.taskId = task.mt.id
  jobId : ∀ job ∈ task.allJobs, ∀ tc ∈ job.transactions, tc.mt.jobId = job.mt.id

namespace Directory

section Tables

variable (ts : List Task)

def taskOf (j : Nat) : Nat :=
  ((ts.find? fun t => j ∈ t.allJobs.map (·.mt.id)).map (·.mt.id)).getD 0

def jobsOf (t : Nat) : List Nat :=
  ((ts.find? fun task => task.mt.id = t).map fun task => task.allJobs.map (·.mt.id)).getD []

def txsOf (j : Nat) : List Nat :=
  (((ts.flatMap Task.allJobs).find? fun job => job.mt.id = j).map Job.ids).getD []

end Tables

variable {ts : List Task} {t j k : Nat}

theorem mem_jobsOf (h : j ∈ jobsOf ts t) :
    ∃ task ∈ ts, task.mt.id = t ∧ ∃ job ∈ task.allJobs, job.mt.id = j := by
  obtain ⟨task, htask, hid, hmem⟩ := mem_lookup h
  exact ⟨task, htask, of_decide_eq_true hid, List.mem_map.mp hmem⟩

theorem mem_txsOf (h : k ∈ txsOf ts j) : ∃ job ∈ ts.flatMap Task.allJobs, job.mt.id = j ∧ k ∈ job.ids := by
  obtain ⟨job, hjob, hid, hmem⟩ := mem_lookup h
  exact ⟨job, hjob, of_decide_eq_true hid, hmem⟩

section Distinct

theorem jobs_nodup (h : (ts.flatMap Task.allIds).Nodup) :
    ((ts.flatMap Task.allJobs).flatMap Job.allIds).Nodup := by
  refine h.sublist ?_
  rw [List.flatMap_assoc]
  exact .flatMap_right ts fun task _ => List.sublist_cons_self _ _

variable (h : (ts.flatMap Task.allIds).Nodup)

include h

theorem job_unique {a b : Job} (ha : a ∈ ts.flatMap Task.allJobs) (hb : b ∈ ts.flatMap Task.allJobs) {x : Nat}
    (hxa : x ∈ a.allIds) (hxb : x ∈ b.allIds) : a = b := eq_of_common (jobs_nodup h) ha hb hxa hxb

theorem task_unique {a b : Task} (ha : a ∈ ts) (hb : b ∈ ts) {x : Nat} (hxa : x ∈ a.allIds)
    (hxb : x ∈ b.allIds) : a = b := eq_of_common h ha hb hxa hxb

theorem job_nodup {job : Job} (hj : job ∈ ts.flatMap Task.allJobs) : job.allIds.Nodup :=
  (List.nodup_flatMap.mp (jobs_nodup h)).1 job hj

theorem taskOf_of_mem (hj : j ∈ jobsOf ts t) : taskOf ts j = t := by
  obtain ⟨task, htask, rfl, job, hjob, rfl⟩ := mem_jobsOf hj
  have hin : ∀ task' : Task, job.mt.id ∈ task'.allJobs.map (·.mt.id) → job.mt.id ∈ task'.allIds := by
    intro task' hmem
    obtain ⟨job', hjob', hid⟩ := List.mem_map.mp hmem
    refine List.mem_cons_of_mem _ (List.mem_flatMap.mpr ⟨job', hjob', ?_⟩)
    rw [← hid]
    exact List.mem_cons_self
  have hfind : (ts.find? fun t => job.mt.id ∈ t.allJobs.map (·.mt.id)) = some task := by
    refine find?_unique htask ?_ fun b hb hp => ?_
    · simpa using ⟨job, hjob, rfl⟩
    · have hmem := of_decide_eq_true hp
      exact task_unique h hb htask (hin b hmem) (hin task (List.mem_map_of_mem hjob))
  rw [taskOf, hfind]
  rfl

theorem nodup_txsOf (j : Nat) : (txsOf ts j).Nodup :=
  nodup_lookup fun _ hjob => (List.nodup_cons.mp (job_nodup h hjob)).2

theorem apart_of_mem (hj : j ∈ jobsOf ts t) (k : Nat) : j ∉ txsOf ts k := by
  intro hk
  obtain ⟨task, htask, -, job, hjob, rfl⟩ := mem_jobsOf hj
  obtain ⟨job', hjob', -, hmem⟩ := mem_txsOf hk
  have hin : job ∈ ts.flatMap Task.allJobs := List.mem_flatMap.mpr ⟨task, htask, hjob⟩
  obtain rfl := job_unique h hin hjob' List.mem_cons_self (List.mem_cons_of_mem _ hmem)
  exact (List.nodup_cons.mp (job_nodup h hin)).1 hmem

end Distinct

/-- The directory of tasks whose ids are all distinct. -/
def ofTasks (ts : List Task) (h : (ts.flatMap Task.allIds).Nodup) : Directory where
  task := taskOf ts
  jobs := jobsOf ts
  txs := txsOf ts
  task_of_mem := taskOf_of_mem h
  nodup := nodup_txsOf h
  apart := apart_of_mem h

theorem jobsOf_eq (h : (ts.flatMap Task.allIds).Nodup) {task : Task} (ht : task ∈ ts) :
    jobsOf ts task.mt.id = task.allJobs.map (·.mt.id) := by
  have hfind : (ts.find? fun t => t.mt.id = task.mt.id) = some task := by
    refine find?_unique ht (decide_eq_true rfl) fun b hb hp => ?_
    have hid : b.mt.id = task.mt.id := of_decide_eq_true hp
    exact task_unique h hb ht (hid ▸ List.mem_cons_self) List.mem_cons_self
  rw [jobsOf, hfind]
  rfl

theorem txsOf_eq (h : (ts.flatMap Task.allIds).Nodup) {job : Job} (hj : job ∈ ts.flatMap Task.allJobs) :
    txsOf ts job.mt.id = job.ids := by
  have hfind : ((ts.flatMap Task.allJobs).find? fun b => b.mt.id = job.mt.id) = some job := by
    refine find?_unique hj (decide_eq_true rfl) fun b hb hp => ?_
    have hid : b.mt.id = job.mt.id := of_decide_eq_true hp
    exact job_unique h hb hj (hid ▸ List.mem_cons_self) List.mem_cons_self
  rw [txsOf, hfind]
  rfl

theorem ofTasks_unique (h : (ts.flatMap Task.allIds).Nodup) : (ofTasks ts h).Unique where
  jobs T := by
    refine nodup_lookup fun task htask => ?_
    refine (List.nodup_cons.mp ((List.nodup_flatMap.mp h).1 task htask)).2.sublist ?_
    rw [List.map_eq_flatMap]
    exact .flatMap_right _ fun job _ => List.singleton_sublist.mpr List.mem_cons_self
  txs {j j' id} hj hj' := by
    obtain ⟨a, ha, rfl, hida⟩ := mem_txsOf hj
    obtain ⟨b, hb, rfl, hidb⟩ := mem_txsOf hj'
    rw [job_unique h ha hb (List.mem_cons_of_mem _ hida) (List.mem_cons_of_mem _ hidb)]

theorem numbered_ofTasks (h : (ts.flatMap Task.allIds).Nodup) {task : Task} (ht : task ∈ ts)
    (hn : task.Nested) : task.Numbered (ofTasks ts h) where
  jobs := hn.jobs
  ids := (jobsOf_eq h ht).symm
  job job hj := by
    have hin : job ∈ ts.flatMap Task.allJobs := List.mem_flatMap.mpr ⟨task, ht, hj⟩
    refine ⟨?_, (txsOf_eq h hin).symm, hn.jobId job hj⟩
    show job.mt.id ∈ jobsOf ts job.mt.taskId
    rw [hn.taskId job hj, jobsOf_eq h ht]
    exact List.mem_map_of_mem hj

end Directory

namespace Wire

variable {μ : Type}

/-- The task as the coordinator takes it, where every part has its Meta. -/
def Job.plain (job : Job μ) : Tarantula.Job :=
  ⟨job.mt.getD default, job.transactions.map fun t => ⟨t.mt.getD default⟩⟩

def Task.plain (task : Task μ) : Tarantula.Task :=
  ⟨task.mt.getD default, task.validator.map Job.plain, task.jobs.map Job.plain⟩

theorem Task.allJobs_plain (task : Task μ) : task.plain.allJobs = task.allJobs.map Job.plain := by
  simp only [Task.plain, Tarantula.Task.allJobs, Task.allJobs, Option.toList_map, List.map_append]

theorem Job.allIds_plain {taskId : Nat} {job : Job μ} (h : job.Nested taskId) :
    job.plain.allIds = job.metas.map (·.id) := by
  obtain ⟨mt, hmt, -, hts⟩ := h
  have hids : (job.transactions.flatMap (·.mt.toList)).map (·.id) =
      job.transactions.map fun t => (t.mt.getD default).id := by
    rw [List.map_flatMap, List.map_eq_flatMap]
    refine List.flatMap_congr fun t ht => ?_
    obtain ⟨m, hm, -⟩ := hts t ht
    rw [hm]
    rfl
  rw [Job.metas, List.map_append, hids, hmt, Job.plain, Job.allIds, hmt, Job.ids, List.map_map]
  rfl

theorem Task.allIds_plain {task : Task μ} {mt : Meta} (hmt : task.mt = some mt)
    (h : ∀ job ∈ task.allJobs, job.Nested mt.id) : task.plain.allIds = task.metas.map (·.id) := by
  have hids : (task.allJobs.flatMap Job.metas).map (·.id) =
      (task.allJobs.map Job.plain).flatMap Tarantula.Job.allIds := by
    rw [List.map_flatMap, List.flatMap_map]
    exact List.flatMap_congr fun job hj => (Job.allIds_plain (h job hj)).symm
  rw [Task.metas, List.map_append, hids, Tarantula.Task.allIds, Task.allJobs_plain, Task.plain, hmt]
  rfl

theorem Task.nested_plain {task : Task μ} {mt : Meta} (hmt : task.mt = some mt) (hjobs : task.jobs ≠ [])
    (h : ∀ job ∈ task.allJobs, job.Nested mt.id) : task.plain.Nested := by
  have hplain : task.plain.mt = mt := by rw [Task.plain, hmt, Option.getD_some]
  refine ⟨by simpa [Task.plain] using hjobs, fun job hj => ?_, fun job hj tc htc => ?_⟩
  · rw [Task.allJobs_plain] at hj
    obtain ⟨wire, hw, rfl⟩ := List.mem_map.mp hj
    obtain ⟨jmt, hjmt, htask, -⟩ := h wire hw
    rw [hplain, Job.plain, hjmt]
    exact htask
  · rw [Task.allJobs_plain] at hj
    obtain ⟨wire, hw, rfl⟩ := List.mem_map.mp hj
    obtain ⟨jmt, hjmt, -, hts⟩ := h wire hw
    obtain ⟨t, ht, rfl⟩ := List.mem_map.mp htc
    obtain ⟨m, hm, -, hjob⟩ := hts t ht
    rw [Job.plain, hjmt, hm]
    exact hjob

end Wire

namespace IssueEnv

variable {μ : Type} {env : IssueEnv} {task task' : Wire.Task μ}

/-- The task that is created and set up, whatever becomes of the two calls. -/
def Submits (env : IssueEnv) (task task' : Wire.Task μ) : Prop :=
  ∃ created setUp reply, IssueEnv.issue { env with created, setUp } task = .issued task' reply

/-- What `Issue` has made of a task that it submits. -/
structure Prepared (env : IssueEnv) (task task' : Wire.Task μ) : Prop where
  ids : task'.plain.allIds = drawn env.tid 0 task.size
  nested : task'.plain.Nested
  parents : task'.Nested
  token : ∀ m ∈ task'.metas, m.ringPrefix = (env.ringToken (beBytes 8 task'.plain.mt.id)).toNat
  assigned : task'.plain.mt.ringPrefix ≠ 0

/-- The parts of a numbered task, as the two loops have made them. -/
theorem prepared_of_numbered {mt : Meta} {validator jobs : List (Wire.Job μ)} {n n' : Nat}
    (hvalidator : Wire.numberJobs env.tid (env.tid 0).toNat task.validator.toList 1 = some (validator, n))
    (hnumbered : Wire.numberJobs env.tid (env.tid 0).toNat task.jobs n = some (jobs, n'))
    (hjobs : task.jobs ≠ []) (hid : mt.id = (env.tid 0).toNat)
    (htoken : (env.ringToken (beBytes 8 (env.tid 0).toNat)).toNat ≠ 0) :
    env.Prepared task (Wire.Task.setPrefix (env.ringToken (beBytes 8 (env.tid 0).toNat)).toNat
      ⟨some mt, validator.head?, jobs⟩) := by
  obtain ⟨rfl, hvids, hvlen, hvnested⟩ := Wire.numberJobs_some hvalidator
  obtain ⟨-, hjids, hjlen, hjnested⟩ := Wire.numberJobs_some hnumbered
  have hone : validator.length ≤ 1 := by
    rw [hvlen]
    cases task.validator <;> simp
  generalize hp : (env.ringToken (beBytes 8 (env.tid 0).toNat)).toNat = p at htoken
  have hall : (Wire.Task.mk (some mt) validator.head? jobs).allJobs = validator ++ jobs := by
    rw [Wire.Task.allJobs, toList_head? hone]
  have hmt : (Wire.Task.setPrefix p ⟨some mt, validator.head?, jobs⟩).mt =
    some { mt with ringPrefix := p } := rfl
  have hplain : (Wire.Task.setPrefix p ⟨some mt, validator.head?, jobs⟩).plain.mt =
    { mt with ringPrefix := p } :=
    rfl
  have hnested : ∀ job ∈ (Wire.Task.setPrefix p ⟨some mt, validator.head?, jobs⟩).allJobs,
      job.Nested mt.id := by
    rw [Wire.Task.allJobs_setPrefix, hall, hid]
    intro job hj
    obtain ⟨old, hold, rfl⟩ := List.mem_map.mp hj
    rcases List.mem_append.mp hold with hold | hold
    · exact (hvnested old hold).setPrefix p
    · exact (hjnested old hold).setPrefix p
  refine ⟨?_, ?_, ⟨_, hmt, hnested⟩, ?_, ?_⟩
  · have hdrawn : drawn env.tid 0 task.size =
        mt.id :: ((validator ++ jobs).flatMap (·.metas)).map (·.id) := by
      rw [Wire.Task.size, Wire.Task.allJobs, drawn_succ, List.map_append, List.sum_append, drawn_add,
        ← hvids, ← hjids, hid, List.flatMap_append, List.map_append]
    rw [Wire.Task.allIds_plain hmt hnested, Wire.Task.metas_setPrefix, List.map_map, Wire.Task.metas, hall,
      hdrawn]
    rfl
  · refine Wire.Task.nested_plain hmt ?_ hnested
    intro hnil
    have hempty : jobs = [] := List.map_eq_nil_iff.mp hnil
    rw [hempty] at hjlen
    exact hjobs (List.length_eq_zero_iff.mp hjlen.symm)
  · intro m hm
    rw [Wire.Task.metas_setPrefix] at hm
    obtain ⟨old, -, rfl⟩ := List.mem_map.mp hm
    rw [hplain]
    dsimp only
    rw [hid, hp]
  · rw [hplain]
    exact htoken

theorem Submits.prepared (h : env.Submits task task') : env.Prepared task task' := by
  obtain ⟨created, setUp, reply, h⟩ := h
  unfold issue at h
  cases hmt : task.mt with
  | none => simp [hmt] at h
  | some mt =>
    simp only [hmt] at h
    split at h
    · cases h
    · next validator n hvalidator =>
      split at h
      · cases h
      · next hjobs =>
        split at h
        · cases h
        · next jobs n' hnumbered =>
          obtain ⟨rfl, -, -, -, htoken, -⟩ := submit_issued h
          exact prepared_of_numbered hvalidator hnumbered (by simpa using hjobs) rfl htoken

end IssueEnv

structure Submission (μ : Type) where
  env : IssueEnv
  task : Wire.Task μ
  sent : Wire.Task μ
  submits : env.Submits task sent

namespace Submission

variable {μ : Type}

def ids (s : Submission μ) : List Nat := drawn s.env.tid 0 s.task.size

theorem prepared (s : Submission μ) : s.env.Prepared s.task s.sent := s.submits.prepared

theorem nodup_allIds {subs : List (Submission μ)} (h : (subs.flatMap ids).Nodup) :
    ((subs.map (·.sent.plain)).flatMap Task.allIds).Nodup := by
  rw [List.flatMap_map, List.flatMap_congr fun s _ => s.prepared.ids]
  exact h

end Submission

/-- The task as it was stored at some time: its states have moved, its numbers have not. -/
structure Task.VersionOf (version task : Task) : Prop where
  id : version.mt.id = task.mt.id
  jobs : version.jobs ≠ []
  fixed : version.allJobs.map Job.fixed = task.allJobs.map Job.fixed

theorem Task.VersionOf.numbered {dir : Directory} {version task : Task} (h : version.VersionOf task)
    (ht : task.Numbered dir) : version.Numbered dir where
  jobs := h.jobs
  ids := by
    have hids := congrArg (List.map Prod.fst) h.fixed
    rw [List.map_map, List.map_map] at hids
    rw [h.id, ← ht.ids]
    exact hids
  job job hj := by
    have hmem : job.fixed ∈ task.allJobs.map Job.fixed := h.fixed ▸ List.mem_map_of_mem hj
    obtain ⟨old, hold, hfixed⟩ := List.mem_map.mp hmem
    exact Job.numbered_of_fixed hfixed.symm (ht.job old hold)

/-- What `load` finds for the task `k` is a version of a given task. -/
def LoadedFrom (ts : List Task) (k : Nat) (loaded : Option (Task × Nat)) : Prop :=
  ∀ p ∈ loaded, p.1.mt.id = k ∧ ∃ t ∈ ts, p.1.VersionOf t

/-- The coordinator is asked to set up the given tasks, and reads versions of them. -/
def Event.Of (ts : List Task) : Event → Prop
  | .recovery taskId loaded => LoadedFrom ts taskId loaded
  | .task t => t ∈ ts
  | .job _ => True
  | .update mt loaded => LoadedFrom ts mt.taskId loaded

theorem LoadedFrom.stored {dir : Directory} {ts : List Task} (hts : ∀ t ∈ ts, t.Numbered dir) {k : Nat}
    {loaded : Option (Task × Nat)} (h : LoadedFrom ts k loaded) : Stored dir k loaded := by
  intro p hp
  obtain ⟨hid, t, ht, hv⟩ := h p hp
  exact ⟨hid, hv.numbered (hts t ht)⟩

theorem Event.Of.numbered {dir : Directory} {ts : List Task} (hts : ∀ t ∈ ts, t.Numbered dir) {e : Event}
    (h : e.Of ts) : e.Numbered dir := by
  cases e with
  | recovery taskId loaded => exact LoadedFrom.stored hts h
  | task t => exact hts t h
  | job r => exact trivial
  | update mt loaded => exact LoadedFrom.stored hts h

/-- Where no id is drawn twice, the tasks of all calls of `Issue` have their ids in one directory, with the
ids of the task and of the job on every part below them and the ring token of the task on every part, and
the coordinator that takes them keeps its maps consistent with the directory over every run. -/
theorem issued_tasks_numbered {μ : Type} (subs : List (Submission μ))
    (hids : (subs.flatMap Submission.ids).Nodup) :
    ∃ dir : Directory, dir.Unique ∧
      (∀ s ∈ subs, s.sent.plain.Numbered dir ∧ s.sent.Nested ∧ s.sent.plain.allIds = s.ids ∧
        s.sent.plain.mt.ringPrefix ≠ 0 ∧
        ∀ m ∈ s.sent.metas, m.ringPrefix = (s.env.ringToken (beBytes 8 s.sent.plain.mt.id)).toNat) ∧
      ∀ m, Reaches TaskManager.wait (fun _ e => e.Of (subs.map (·.sent.plain))) .empty m →
        m.Wellformed dir := by
  have hnodup := Submission.nodup_allIds hids
  have hnumbered : ∀ task ∈ subs.map (·.sent.plain), task.Numbered (.ofTasks _ hnodup) := by
    intro task htask
    obtain ⟨s, hs, rfl⟩ := List.mem_map.mp htask
    exact Directory.numbered_ofTasks hnodup htask s.prepared.nested
  refine ⟨.ofTasks _ hnodup, Directory.ofTasks_unique hnodup, fun s hs => ?_, fun m hm => ?_⟩
  · have hp := s.prepared
    exact ⟨hnumbered _ (List.mem_map_of_mem hs), hp.parents, hp.ids, hp.assigned, hp.token⟩
  · refine hm.invariant .empty fun m e m' hw he hstep => ?_
    exact hw.waited (he.numbered hnumbered) (TaskManager.wait_cases hstep)

def smallTask : Wire.Task Bytes :=
  ⟨partMeta "cluster-create", some ⟨partMeta "check", [⟨partMeta "check_gcp", none, none, none⟩]⟩,
    [⟨partMeta "create", [⟨partMeta "create_gcp", none, none, none⟩]⟩]⟩

def envFrom (base : Nat) : IssueEnv := { sampleIssueEnv with tid := fun n => UInt64.ofNat (n + base) }

theorem submits_smallTask {base : Nat} (h : ((envFrom base).tid 0).toNat ≠ 0) :
    ∃ sent, (envFrom base).Submits smallTask sent :=
  ⟨_, ⟨true, "", none⟩, ⟨true, "", none⟩, _, if_neg h⟩

theorem issued_tasks_numbered_sample : ∃ subs : List (Submission Bytes), subs.length = 2 ∧
    ∃ dir : Directory, dir.Unique ∧ (∀ s ∈ subs, s.sent.plain.Numbered dir ∧ s.sent.Nested) ∧
      ∀ m, Reaches TaskManager.wait (fun _ e => e.Of (subs.map (·.sent.plain))) .empty m →
        m.Wellformed dir := by
  obtain ⟨sent₁, h₁⟩ := submits_smallTask (show ((envFrom 7).tid 0).toNat ≠ 0 by decide +kernel)
  obtain ⟨sent₂, h₂⟩ := submits_smallTask (show ((envFrom 100).tid 0).toNat ≠ 0 by decide +kernel)
  let subs : List (Submission Bytes) :=
    [⟨envFrom 7, smallTask, sent₁, h₁⟩, ⟨envFrom 100, smallTask, sent₂, h₂⟩]
  have hids : (subs.flatMap Submission.ids).Nodup := by
    show (drawn (envFrom 7).tid 0 smallTask.size ++ (drawn (envFrom 100).tid 0 smallTask.size ++ [])).Nodup
    decide +kernel
  obtain ⟨dir, hu, hs, hm⟩ := issued_tasks_numbered subs hids
  exact ⟨subs, rfl, dir, hu, fun s h => ⟨(hs s h).1, (hs s h).2.1⟩, hm⟩

end Tarantula
