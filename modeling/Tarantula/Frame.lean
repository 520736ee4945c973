import Tarantula.WaitCases

/-! What the coordinator never rewrites in a task, a job or a job resource, and
the invariant of these parts along every run. -/

namespace Tarantula

/-- The ids given out by `Issue`: the jobs of each task and the transactions of
each job. An id is given out once. -/
structure Directory where
  task : Nat → Nat
  jobs : Nat → List Nat
  txs : Nat → List Nat
  task_of_mem : ∀ {t j}, j ∈ jobs t → task j = t
  nodup : ∀ j, (txs j).Nodup
  apart : ∀ {t j}, j ∈ jobs t → ∀ k, j ∉ txs k

structure Job.Numbered (dir : Directory) (job : Job) : Prop where
  mem : job.mt.id ∈ dir.jobs job.mt.taskId
  ids : job.ids = dir.txs job.mt.id
  jobId : ∀ tc ∈ job.transactions, tc.mt.jobId = job.mt.id

structure Task.Numbered (dir : Directory) (task : Task) : Prop where
  jobs : task.jobs ≠ []
  ids : task.allJobs.map (·.mt.id) = dir.jobs task.mt.id
  job : ∀ job ∈ task.allJobs, job.Numbered dir

instance (dir : Directory) (job : Job) : Decidable (job.Numbered dir) :=
  decidable_of_iff (job.mt.id ∈ dir.jobs job.mt.taskId ∧ job.ids = dir.txs job.mt.id ∧
    ∀ tc ∈ job.transactions, tc.mt.jobId = job.mt.id)
    ⟨fun h => ⟨h.1, h.2.1, h.2.2⟩, fun h => ⟨h.mem, h.ids, h.jobId⟩⟩

instance (dir : Directory) (task : Task) : Decidable (task.Numbered dir) :=
  decidable_of_iff (task.jobs ≠ [] ∧ task.allJobs.map (·.mt.id) = dir.jobs task.mt.id ∧
    ∀ job ∈ task.allJobs, job.Numbered dir)
    ⟨fun h => ⟨h.1, h.2.1, h.2.2⟩, fun h => ⟨h.jobs, h.ids, h.job⟩⟩

/-- What `load` finds for the task `k` is a version of that task. -/
def Stored (dir : Directory) (k : Nat) (loaded : Option (Task × Nat)) : Prop :=
  ∀ p ∈ loaded, p.1.mt.id = k ∧ p.1.Numbered dir

instance (dir : Directory) (k : Nat) (loaded : Option (Task × Nat)) :
    Decidable (Stored dir k loaded) :=
  inferInstanceAs (Decidable (∀ p ∈ loaded, _))

def Event.Numbered (dir : Directory) : Event → Prop
  | .recovery taskId loaded => Stored dir taskId loaded
  | .task t => t.Numbered dir
  | .job _ => True
  | .update mt loaded => Stored dir mt.taskId loaded

instance (dir : Directory) : ∀ e : Event, Decidable (e.Numbered dir)
  | .recovery taskId loaded => inferInstanceAs (Decidable (Stored dir taskId loaded))
  | .task task => inferInstanceAs (Decidable (task.Numbered dir))
  | .job _ => inferInstanceAs (Decidable True)
  | .update mt loaded => inferInstanceAs (Decidable (Stored dir mt.taskId loaded))

/-- The ids of a task with job 2 of the transactions 3 and 4, then job 5 of the
transaction 6. -/
def sampleDirectory : Directory where
  task _ := 1
  jobs t := if t = 1 then [2, 5] else []
  txs j := if j = 2 then [3, 4] else if j = 5 then [6] else []
  task_of_mem := by
    intro t j h
    by_cases ht : t = 1
    · exact ht.symm
    · simp [ht] at h
  nodup := by
    intro j
    split
    · decide
    · split <;> decide
  apart := by
    intro t j h k hk
    have hj : j = 2 ∨ j = 5 := by
      by_cases ht : t = 1
      · simpa [ht] using h
      · simp [ht] at h
    split at hk
    · simp only [List.mem_cons, List.not_mem_nil, or_false] at hk
      omega
    · split at hk
      · simp only [List.mem_cons, List.not_mem_nil, or_false] at hk
        omega
      · simp at hk

def sampleMeta (jobId id : Nat) (st : TccState) : Meta :=
  { ringPrefix := 7, taskId := 1, jobId := jobId, id := id, nodeId := "", tag := "", name := "",
    timeout := 1800, retries := 3, state := st, description := "" }

def sampleTask : Task :=
  { mt := sampleMeta 0 1 (.unknown 0)
    validator := none
    jobs :=
      [⟨sampleMeta 0 2 (.unknown 0), [⟨sampleMeta 2 3 (.unknown 0)⟩, ⟨sampleMeta 2 4 (.unknown 0)⟩]⟩,
        ⟨sampleMeta 0 5 (.unknown 0), [⟨sampleMeta 5 6 (.unknown 0)⟩]⟩] }

example : sampleTask.Numbered sampleDirectory := by decide

def Job.fixed (job : Job) : Nat × Nat × List (Nat × Nat) :=
  (job.mt.id, job.mt.taskId, job.transactions.map fun tc => (tc.mt.id, tc.mt.jobId))

def TaskResource.fixed (tr : TaskResource) : Nat × Option Ref × List Ref × List Ref :=
  (tr.mt.id, tr.validator, tr.jobs, tr.pending)

def JobResource.fixed (tj : JobResource) : Ref × Nat × (Nat → Option Nat) :=
  (tj.resource, tj.joinParties, fun id => (tj.joining[id]?).map (·.resource))

theorem Job.numbered_of_fixed {dir : Directory} {a b : Job} (h : a.fixed = b.fixed)
    (hb : b.Numbered dir) : a.Numbered dir := by
  simp only [Job.fixed, Prod.mk.injEq] at h
  obtain ⟨hid, ht, hx⟩ := h
  have hids : a.ids = b.ids := by
    simpa [Job.ids, Function.comp_def] using congrArg (List.map Prod.fst) hx
  have hjob : a.transactions.map (·.mt.jobId) = b.transactions.map (·.mt.jobId) := by
    simpa [Function.comp_def] using congrArg (List.map Prod.snd) hx
  refine ⟨by rw [hid, ht]; exact hb.mem, by rw [hids, hid]; exact hb.ids, ?_⟩
  intro tc htc
  have hm : tc.mt.jobId ∈ b.transactions.map (·.mt.jobId) := hjob ▸ List.mem_map_of_mem htc
  obtain ⟨tc', htc', he⟩ := List.mem_map.mp hm
  rw [← he, hb.jobId tc' htc', hid]

theorem Job.mapMeta_fixed (job : Job) {f : Meta → Meta}
    (hf : ∀ mt, (f mt).id = mt.id ∧ (f mt).jobId = mt.jobId) : (job.mapMeta f).fixed = job.fixed := by
  simp [Job.fixed, Job.mapMeta, hf]

theorem Job.map_setState {β : Type} (job : Job) (i : Nat) (st : TccState) {g : Transaction → β}
    (hg : ∀ tc, g { tc with mt.state := st } = g tc) :
    (job.setState i st).transactions.map g = job.transactions.map g := by
  apply List.ext_getElem?
  intro n
  simp only [Job.setState, List.getElem?_map, List.getElem?_modify]
  cases job.transactions[n]? with
  | none => simp
  | some tc => by_cases h : i = n <;> simp [h, hg]

theorem Job.setState_fixed (job : Job) (i : Nat) (st : TccState) :
    (job.setState i st).fixed = job.fixed := by
  rw [Job.fixed, Job.map_setState job i st fun _ => rfl]
  rfl

theorem JobResource.fixed_insert {tj : JobResource} {id : Nat} {t : TransactionResource}
    (t' : TransactionResource) (ht : tj.joining[id]? = some t) (hr : t'.resource = t.resource) :
    ∀ a : Nat, ((tj.joining.insert id t')[a]?).map (·.resource) =
      (tj.joining[a]?).map (·.resource) := by
  intro a
  rw [ExtMap.getElem?_insert]
  split
  · next h => rw [← h, ht]; simp [hr]
  · rfl

theorem JobResource.count_fixed {tj : JobResource} {id : Nat} {t t' : TransactionResource}
    (ht : tj.joining[id]? = some t) (hr : t'.resource = t.resource) :
    (tj.count id t').fixed = tj.fixed := by
  simp only [JobResource.fixed, JobResource.count, JobResource.fixed_insert t' ht hr]

theorem JobResource.cancel_fixed {tj tj' : JobResource} {c : Meta} (h : tj.cancel c = some tj') :
    tj'.fixed = tj.fixed := by
  obtain ⟨t, ht, rfl⟩ := Option.map_eq_some_iff.mp h
  simp only [JobResource.fixed, JobResource.fixed_insert { t with canceled := true } ht rfl]

namespace TaskManager

/-- `m'` has the objects of `m`, changed only where they may change. -/
structure Frame (m m' : TaskManager) : Prop where
  heap : ∀ r, (m'.heap r).fixed = (m.heap r).fixed
  next : m'.next = m.next
  jobs : ∀ r ∈ m'.jobs, r ∈ m.jobs ∨ ∃ (k : Nat) (tr : TaskResource),
    m.trs[k]? = some tr ∧ r ∈ tr.pending
  trs : ∀ k : Nat, (m'.trs[k]?).map TaskResource.fixed = (m.trs[k]?).map TaskResource.fixed
  tjs : ∀ k : Nat, (m'.tjs[k]?).map JobResource.fixed = (m.tjs[k]?).map JobResource.fixed
  log : ∃ acts, m'.log = acts ++ m.log ∧ ∀ j, Act.started j ∉ acts

namespace Frame

variable {m m' m'' : TaskManager}

theorem of_eq (hh : m'.heap = m.heap) (hn : m'.next = m.next) (hj : m'.jobs = m.jobs)
    (hr : m'.trs = m.trs) (ht : m'.tjs = m.tjs) (hl : m'.log = m.log) : Frame m m' :=
  ⟨fun _ => by rw [hh], hn, fun _ h => .inl (hj ▸ h), fun _ => by rw [hr], fun _ => by rw [ht],
    [], hl, by simp⟩

theorem trans (h : Frame m m') (h' : Frame m' m'') : Frame m m'' := by
  refine ⟨fun r => (h'.heap r).trans (h.heap r), h'.next.trans h.next, fun r hr => ?_,
    fun k => (h'.trs k).trans (h.trs k), fun k => (h'.tjs k).trans (h.tjs k), ?_⟩
  · rcases h'.jobs r hr with hr | ⟨k, tr, hk, hp⟩
    · exact h.jobs r hr
    · have he := h.trs k
      rw [hk] at he
      obtain ⟨tr₀, htr₀, hf⟩ := Option.map_eq_some_iff.mp he.symm
      simp only [TaskResource.fixed, Prod.mk.injEq] at hf
      exact .inr ⟨k, tr₀, htr₀, hf.2.2.2 ▸ hp⟩
  · obtain ⟨acts, hl, hs⟩ := h.log
    obtain ⟨acts', hl', hs'⟩ := h'.log
    exact ⟨acts' ++ acts, by rw [hl', hl, List.append_assoc], by simp [hs, hs']⟩

theorem note (m : TaskManager) (acts : List Act) (h : ∀ j, Act.started j ∉ acts) :
    Frame m (m.note acts) :=
  ⟨fun _ => rfl, rfl, fun _ h => .inl h, fun _ => rfl, fun _ => rfl, acts.reverse, rfl, by simpa using h⟩

theorem tms (m : TaskManager) (tms : IdMap Timeout) : Frame m { m with tms := tms } :=
  of_eq rfl rfl rfl rfl rfl rfl

theorem receive (m : TaskManager) (mt : Meta) : Frame m (m.receive mt) :=
  (note m [.received mt] (by simp)).trans (tms _ _)

theorem update (m : TaskManager) {r : Ref} (job : Job) (h : job.fixed = (m.heap r).fixed) :
    Frame m { m with heap := Function.update m.heap r job } := by
  refine ⟨fun r' => ?_, rfl, fun _ h => .inl h, fun _ => rfl, fun _ => rfl, [], rfl, by simp⟩
  by_cases hr : r' = r
  · subst hr
    simpa using h
  · simp [hr]

theorem writeMeta (m : TaskManager) (r : Ref) {f : Meta → Meta}
    (hf : ∀ mt, (f mt).id = mt.id ∧ (f mt).taskId = mt.taskId) : Frame m (m.writeMeta r f) :=
  update m _ (by simp [Job.fixed, hf])

theorem readyJob (m : TaskManager) (tr : TaskResource) (r : Ref) : Frame m (m.readyJob tr r) :=
  writeMeta m r fun _ => ⟨rfl, rfl⟩

theorem ready (m : TaskManager) (tr : TaskResource) (r : Ref) :
    Frame m ((m.readyJob tr r).note [.updateTask tr.mt.id]) :=
  (readyJob m tr r).trans (note _ _ (by simp))

theorem dequeue (m : TaskManager) (i : Nat) : Frame m { m with jobs := m.jobs.eraseIdx i } :=
  ⟨fun _ => rfl, rfl, fun _ hr => .inl (List.mem_of_mem_eraseIdx hr), fun _ => rfl, fun _ => rfl,
    [], rfl, by simp⟩

theorem insertJob {k : Nat} {tj tj' : JobResource} (hk : m.tjs[k]? = some tj)
    (hf : tj'.fixed = tj.fixed) : Frame m { m with tjs := m.tjs.insert k tj' } := by
  refine ⟨fun _ => rfl, rfl, fun _ h => .inl h, fun _ => rfl, fun a => ?_, [], rfl, by simp⟩
  simp only [ExtMap.getElem?_insert]
  split
  · next h => rw [← h, hk]; simp [hf]
  · rfl

theorem putJob {k : Nat} {tj tj' : JobResource} {job : Job} (hk : m.tjs[k]? = some tj)
    (hf : tj'.fixed = tj.fixed) (hj : job.fixed = (m.heap tj'.resource).fixed) :
    Frame m (m.putJob k tj' job) :=
  (insertJob hk hf).trans (update _ _ hj)

theorem putTask {k : Nat} {tr : TaskResource} (tr' : TaskResource) (hk : m.trs[k]? = some tr)
    (hf : tr'.fixed = tr.fixed) : Frame m (m.putTask k tr') := by
  refine ⟨fun _ => rfl, rfl, fun _ h => .inl h, fun a => ?_, fun _ => rfl, [], rfl, by simp⟩
  simp only [TaskManager.putTask, ExtMap.getElem?_insert]
  split
  · next h => rw [← h, hk]; simp [hf]
  · rfl

theorem schedule (k : Nat) {tr : TaskResource} (tr' : TaskResource) {ref : Ref} (hk : m.trs[k]? = some tr)
    (hr : ref ∈ tr.pending) : Frame m (m.schedule tr' ref) := by
  refine ⟨fun _ => rfl, rfl, fun r h => ?_, fun _ => rfl, fun _ => rfl,
    [.updateTask tr'.mt.id], rfl, by simp⟩
  rcases List.mem_append.mp h with h | h
  · exact .inl h
  · exact .inr ⟨k, tr, hk, List.mem_singleton.mp h ▸ hr⟩

theorem decideAll {k : Nat} {tj t : JobResource} {f : Meta → Meta} (hk : m.tjs[k]? = some tj)
    (hf : t.fixed = tj.fixed) (hm : ∀ mt, (f mt).id = mt.id ∧ (f mt).jobId = mt.jobId) :
    Frame m (m.decideAll k t f) := by
  have hp : Frame m (m.putJob k { t with confirmed := 0 } ((m.heap t.resource).mapMeta
      fun mt => { f mt with ringPrefix := (m.heap t.resource).mt.ringPrefix })) :=
    putJob hk hf (Job.mapMeta_fixed _ hm)
  exact (hp.trans (tms _ _)).trans (note _ _ (by simp))

theorem confirmed {k : Nat} {tj : JobResource} (hk : m.tjs[k]? = some tj) :
    Frame m (m.confirmed k tj) :=
  (note m [.confirmed k] (by simp)).trans (decideAll (f := fun mt => { mt with state := .confirmed }) hk rfl
    fun _ => ⟨rfl, rfl⟩)

theorem counted {mt : Meta} {tj : JobResource} {t : TransactionResource}
    (t' : TransactionResource) (hj : m.tjs[mt.jobId]? = some tj) (ht : tj.joining[mt.id]? = some t)
    (hr : t'.resource = t.resource) : Frame m (m.counted mt tj t t') :=
  (receive m mt).trans
    (putJob hj (JobResource.count_fixed ht hr) (Job.setState_fixed _ _ _))

theorem timeout {k : Nat} {mt : Meta} (h : m.timeout k mt = some m') : Frame m m' := by
  cases timeout_cases h with
  | absent => exact of_eq rfl rfl rfl rfl rfl rfl
  | last => exact tms _ _
  | @resend tm p m₁ htm hp hr =>
    have h₁ : Frame m m₁ := by
      rcases retried_cases hr with rfl | ⟨tj, t, hj, ht, tj', rfl, rfl⟩
      · exact of_eq rfl rfl rfl rfl rfl rfl
      · refine insertJob hj ?_
        simp only [JobResource.fixed,
          JobResource.fixed_insert { t with retried := t.retried + 1 } ht rfl]
    refine (h₁.trans (tms m₁ (m₁.tms.insert k { tm with r := tm.r - 1 }))).trans ?_
    cases p <;> exact note _ _ (by simp)

theorem end_ {k : Nat} {tr : TaskResource} (tr' : TaskResource) (hk : m.trs[k]? = some tr)
    (hf : tr'.fixed = tr.fixed) : Frame m (m.end_ k tr') :=
  (putTask { tr' with mt := { tr'.mt with state := .finished } } hk hf).trans (note _ _ (by simp))

theorem finished {k : Nat} {t : JobResource} (h : m.finished k t = some m') : Frame m m' := by
  obtain ⟨tr, m₁, htr, hm₁, hm⟩ := finished_cases h
  have h₁ : Frame m m₁ ∧ m₁.trs = m.trs := by
    have hc : Frame m (m.closeTimer (m.heap t.resource).mt.id) := tms _ _
    have hw := writeMeta (m.closeTimer (m.heap t.resource).mt.id) t.resource
      (f := fun mt => { mt with state := .finished }) fun _ => ⟨rfl, rfl⟩
    rw [hm₁]
    exact ⟨(hc.trans hw).trans (note _ _ (by simp)), rfl⟩
  rw [← h₁.2] at htr
  refine h₁.1.trans ?_
  rcases hm with ⟨next, hn, rfl⟩ | ⟨-, rfl⟩
  · refine (putTask { tr with jobIndex := tr.jobIndex + 1 } htr rfl).trans
      ((readyJob _ _ _).trans (schedule (m.heap t.resource).mt.taskId tr ?_
        (List.mem_of_getElem? hn : next ∈ { tr with jobIndex := tr.jobIndex + 1 }.pending)))
    simp [TaskManager.readyJob, TaskManager.writeMeta, TaskManager.putTask]
  · exact end_ tr htr rfl

theorem stop {k : Nat} {t : JobResource} (hk : m.tjs[k]? = some t) (h : m.stop k t = some m') :
    Frame m m' := by
  obtain ⟨tr, m₁, htr, hm₁, rfl⟩ := stop_cases h
  have h₀ : Frame m (m.putJob k { t with canceled := true } (m.heap t.resource)) :=
    putJob hk rfl rfl
  have h₁ : Frame m m₁ ∧ m₁.trs = m.trs := by
    subst hm₁
    split
    · exact ⟨h₀, rfl⟩
    · exact ⟨h₀.trans (writeMeta _ _ fun _ => ⟨rfl, rfl⟩), rfl⟩
  rw [← h₁.2] at htr
  exact (h₁.1.trans (tms _ _)).trans
    ((note _ [.stopped k] (by simp)).trans (end_ _ htr rfl))

theorem abandon {job : Job} {tr : TaskResource} (htr : m.trs[job.mt.taskId]? = some tr) (k : Nat) :
    Frame m ((m.abandon job tr).note [.canceled k]) := by
  have hp := putTask { tr with jobIndex := tr.pending.length, canceled := true } htr rfl
  exact (hp.trans (tms _ _)).trans (note _ [.canceled k] (by simp))

theorem canceled {k : Nat} {c : Meta} {t : JobResource} (hk : m.tjs[k]? = some t)
    (h : m.canceled k c t = some m') : Frame m m' := by
  obtain ⟨t', tr, hc, htr, rfl⟩ := canceled_cases h
  exact (abandon htr k).trans (decideAll hk (JobResource.cancel_fixed hc) fun _ => ⟨rfl, rfl⟩)

theorem handled {mt : Meta} (h : Handled m mt m') : Frame m m' := by
  cases h with
  | duplicate => exact receive m mt
  | confirm hj ht => exact counted _ hj ht rfl
  | @confirmLast tj t hj ht =>
    have hc := counted { t with confirmed := t.confirmed + 1 } hj ht rfl
    refine hc.trans (confirmed ?_)
    simp [TaskManager.counted, TaskManager.putJob]
  | finish hj ht => exact counted _ hj ht rfl
  | @finishLast tj t _ hj ht _ _ _ h =>
    have hc := counted { t with finished := t.finished + 1 } hj ht rfl
    exact hc.trans (finished h)
  | cancel hj _ h => exact (receive m mt).trans (canceled hj h)
  | timeout _ h => exact timeout h
  | jobTimeout _ h => exact timeout h
  | stop _ h hj he => exact (timeout h).trans (stop hj he)
  | ignored => exact of_eq rfl rfl rfl rfl rfl rfl

end Frame

end TaskManager

end Tarantula
