import Mathlib.Data.List.Nodup
import Tarantula.Runs
import Tarantula.Timers

/-! Which messages an iteration of `Wait` survives. In every reachable state the
lookups the coordinator makes on its own behalf find their entry, so an iteration
fails only on a message that does not name a started job, one of its transactions
or a task in memory. -/

namespace Tarantula

namespace TaskManager

variable {dir : Directory} {m m' : TaskManager}

theorem sound_of_reaches (h : Reaches wait (fun _ e => e.Numbered dir) empty m) :
    Wellformed dir m ∧ Timers m :=
  Reaches.invariant (I := fun m => Wellformed dir m ∧ Timers m) h ⟨.empty, .empty⟩
    fun _ _ _ hs he hstep => ⟨hs.1.waited he (wait_cases hstep), hs.2.waited hs.1 he (wait_cases hstep)⟩

def Retriable (m : TaskManager) (k : Nat) : Prop :=
  ∃ tm, m.tms[k]? = some tm ∧ 0 < tm.d ∧ 0 < tm.r

theorem isSome_retried (hw : Wellformed dir m) (mt : Meta) :
    (m.retried mt).isSome ↔ ((m.tjs[mt.jobId]?).isSome → mt.id ∈ dir.txs mt.jobId) := by
  unfold retried
  cases hj : m.tjs[mt.jobId]? with
  | none => simp
  | some tj => simp only [Option.isSome_map, (hw.job _ tj hj).mem, Option.isSome_some, true_imp_iff]

theorem isSome_timeout (ht : Timers m) (k : Nat) (mt : Meta) :
    (m.timeout k mt).isSome ↔ (Retriable m k → (m.retried mt).isSome) := by
  unfold timeout Retriable
  cases hk : m.tms[k]? with
  | none => simp
  | some tm =>
    by_cases hr : 0 < tm.d ∧ 0 < tm.r
    · obtain ⟨p, hp⟩ : ∃ p, tm.p = some p := by
        cases hp : tm.p with
        | none => exact absurd ((ht k tm hk).call hp) (by omega)
        | some p => exact ⟨p, rfl⟩
      cases m.retried mt <;> simp [hr, hp]
    · simp only [hr, if_false, Option.isSome_some, true_iff]
      rintro ⟨tm', he, hd⟩
      cases he
      exact absurd hd hr

/-- Only the timers of transactions run a callback, and no job has the id of a transaction. -/
theorem not_retriable_job (hw : Wellformed dir m) (ht : Timers m) {k : Nat} {t : Nat}
    (hk : k ∈ dir.jobs t) : ¬ Retriable m k := by
  rintro ⟨tm, htm, hd, -⟩
  have hent := ht k tm htm
  cases hp : tm.p with
  | none => exact absurd (hent.call hp) (by omega)
  | some p =>
    obtain ⟨tc, htc, hid, -⟩ := hent.tc p hp
    have hmem : tc.mt.id ∈ (m.heap p.job).ids := List.mem_map_of_mem (List.mem_of_getElem? htc)
    rw [(hw.numbered _ (hent.lt p hp)).ids, hid] at hmem
    exact dir.apart hk _ hmem

theorem isSome_stop (hw : Wellformed dir m) {k : Nat} {tj : JobResource}
    (hk : m.tjs[k]? = some tj) : (m.stop k tj).isSome := by
  have ht := (hw.job k tj hk).task
  obtain ⟨tr, htr⟩ := Option.isSome_iff_exists.mp ht
  have : m.trs[(m.heap tj.resource).mt.taskId]? = some tr := by rw [hw.taskId hk, htr]
  simp [stop, putJob, this]

theorem isSome_canceled (hw : Wellformed dir m) {k : Nat} {tj : JobResource} (c : Meta)
    (hk : m.tjs[k]? = some tj) : (m.canceled k c tj).isSome ↔ c.id ∈ dir.txs k := by
  obtain ⟨tr, htr⟩ := Option.isSome_iff_exists.mp (hw.job k tj hk).task
  have : m.trs[(m.heap tj.resource).mt.taskId]? = some tr := by rw [hw.taskId hk, htr]
  rw [← (hw.job k tj hk).mem]
  unfold canceled JobResource.cancel
  cases tj.joining[c.id]? <;> simp [this]

theorem isSome_finished (hw : Wellformed dir m) (k : Nat) (tj : JobResource)
    (hk : m.tjs[k]? = some tj) : (m.finished k tj).isSome := by
  obtain ⟨tr, htr⟩ := Option.isSome_iff_exists.mp (hw.job k tj hk).task
  have : m.trs[(m.heap tj.resource).mt.taskId]? = some tr := by rw [hw.taskId hk, htr]
  simp only [finished, closeTimer, this]
  split <;> rfl

/-- What the handling of an update of an unfinished task needs, given the started
jobs and the timers with retries left. -/
def Names (dir : Directory) (started armed : Nat → Prop) (mt : Meta) : Prop :=
  match mt.state with
  | .confirmed | .canceled | .finished => started mt.jobId ∧ mt.id ∈ dir.txs mt.jobId
  | .transactionTimeout => armed mt.id → started mt.jobId → mt.id ∈ dir.txs mt.jobId
  | _ => True

theorem Names.congr {dir : Directory} {started started' armed armed' : Nat → Prop} (mt : Meta)
    (hs : ∀ k, started k ↔ started' k) (ha : ∀ k, armed k ↔ armed' k) :
    Names dir started armed mt ↔ Names dir started' armed' mt := by
  rw [show started = started' from funext fun k => propext (hs k),
    show armed = armed' from funext fun k => propext (ha k)]

theorem isSome_handle (hw : Wellformed dir m) (ht : Timers m) (mt : Meta) :
    (m.handle mt).isSome ↔ Names dir (fun k => (m.tjs[k]?).isSome) (Retriable m) mt := by
  unfold handle Names
  cases hs : mt.state with
  | confirmed =>
    cases hj : m.tjs[mt.jobId]? with
    | none => simp [hj]
    | some tj =>
      simp only [receive_tjs, hj, JobResource.join, hs, Option.isSome_some, true_and,
        ← (hw.job _ tj hj).mem]
      cases tj.joining[mt.id]? <;> simp
  | canceled =>
    cases hj : m.tjs[mt.jobId]? with
    | none => simp [hj]
    | some tj =>
      simp only [receive_tjs, hj, Option.isSome_some, true_and]
      exact isSome_canceled (hw.of_frame (.receive m mt)) mt hj
  | finished =>
    cases hj : m.tjs[mt.jobId]? with
    | none => simp [hj]
    | some tj =>
      simp only [receive_tjs, hj, JobResource.join, hs, Option.isSome_some, true_and,
        ← (hw.job _ tj hj).mem]
      cases hx : tj.joining[mt.id]? with
      | none => simp
      | some t =>
        by_cases hf : 0 < t.finished
        · simp [hf]
        · simp only [Option.map_some, hf, if_false, Option.isSome_some, iff_true]
          split
          · have hc := Frame.counted { t with finished := t.finished + 1 } hj hx rfl
            have hfin := isSome_finished (hw.of_frame hc) mt.jobId
              (tj.count mt.id { t with finished := t.finished + 1 }) (by simp [counted, putJob])
            simpa only [counted, hs, receive_heap] using hfin
          · rfl
  | transactionTimeout =>
    simp only [isSome_timeout ht, isSome_retried hw]
  | jobTimeout =>
    simp only [iff_true]
    have hto : (m.timeout mt.jobId mt).isSome := by
      rw [isSome_timeout ht, isSome_retried hw]
      intro hr hj
      obtain ⟨tj, hj⟩ := Option.isSome_iff_exists.mp hj
      exact absurd hr (not_retriable_job hw ht (hw.mem_jobs hj))
    obtain ⟨m₁, hm₁⟩ := Option.isSome_iff_exists.mp hto
    simp only [hm₁]
    cases hj : m₁.tjs[mt.jobId]? with
    | none => simp
    | some tj => exact isSome_stop (hw.of_frame (.timeout hm₁)) hj
  | _ => simp

def firstUnfinished : Option (Task × Nat) → Option Job
  | none => none
  | some (task, _) =>
    if task.mt.state = .finished then none
    else task.allJobs.find? fun job => job.mt.state ≠ .finished

theorem map_heap_alloc (m : TaskManager) (jobs : List Job) :
    (List.range' m.next jobs.length).map (m.alloc jobs).heap = jobs := by
  apply List.ext_getElem
  · simp
  · intro i hi hi'
    simp only [List.getElem_map, List.getElem_range', Nat.one_mul]
    exact Wellformed.alloc_heap m hi'

theorem head_unfinished {task : Task} {tr : TaskResource} (hn : NewTask m task tr) :
    ((tr.validator.toList ++ tr.jobs).filter fun r =>
      ((m.alloc task.allJobs).heap r).mt.state ≠ .finished).head?.map (m.alloc task.allJobs).heap =
      task.allJobs.find? fun job => job.mt.state ≠ .finished := by
  rw [List.head?_filter, hn.refs]
  conv => rhs; rw [← map_heap_alloc m task.allJobs, List.find?_map]
  rfl

/-- A reload of a stored task returns. It starts the first unfinished job, if any. -/
theorem reload_total (m : TaskManager) {k : Nat} {loaded : Option (Task × Nat)}
    (hs : Stored dir k loaded) :
    ∃ m₁ r, m.reload k loaded = some (m₁, r) ∧
      match firstUnfinished loaded with
      | none => r = none
      | some job => ∃ tr m₀ ref, r = some tr ∧ tr.mt.state ≠ .finished ∧ m₁ = start m₀ ref ∧
          m₀.tjs = m.tjs ∧ m₀.tms = m.tms ∧ (m₀.heap ref).mt.id = job.mt.id ∧
          (m₀.heap ref).transactions = job.transactions ∧ job.Numbered dir := by
  cases loaded with
  | none => exact ⟨m, none, rfl, rfl⟩
  | some p =>
    obtain ⟨task, rev⟩ := p
    obtain ⟨-, ht⟩ := hs (task, rev) rfl
    obtain ⟨m', tr, hnew⟩ : ∃ m' tr, m.newTaskResource task rev = some (m', tr) := by
      simp [newTaskResource, ht.jobs]
    obtain ⟨rfl, -, hn⟩ := newTaskResource_cases hnew
    by_cases hfin : task.mt.state = .finished
    · refine ⟨m, none, ?_, ?_⟩
      · simp [reload, hnew, hn.mt, hfin]
      · simp [firstUnfinished, hfin]
    · have hfind : ((tr.validator.toList ++ tr.jobs).filter fun r =>
          ((m.alloc task.allJobs).heap r).mt.state ≠ .finished).head?.map (m.alloc task.allJobs).heap =
          firstUnfinished (some (task, rev)) := by
        simp only [firstUnfinished, hfin, if_false]
        exact head_unfinished hn
      have hstate : tr.mt.state ≠ .finished := by rw [hn.mt]; exact hfin
      unfold reload
      simp only [hnew, hstate, if_false]
      cases hp : (tr.validator.toList ++ tr.jobs).filter fun r =>
          ((m.alloc task.allJobs).heap r).mt.state ≠ .finished with
      | nil =>
        rw [hp] at hfind
        rw [← hfind]
        exact ⟨_, none, rfl, rfl⟩
      | cons ref rest =>
        rw [hp] at hfind
        rw [← hfind]
        refine ⟨_, _, rfl, _, _, ref, rfl, hstate, rfl, rfl, rfl, ?_, ?_, ?_⟩
        · simp [note, readyJob, writeMeta, putTask]
        · simp [note, readyJob, writeMeta, putTask]
        · have hjob : firstUnfinished (some (task, rev)) = some ((m.alloc task.allJobs).heap ref) :=
            hfind.symm
          simp only [firstUnfinished, hfin, if_false] at hjob
          exact ht.job _ (List.mem_of_find?_eq_some hjob)

/-- The timers with retries left once the job `job` has been started. -/
def ArmedBy (m : TaskManager) (job : Job) (k : Nat) : Prop :=
  (∃ tc ∈ job.transactions, tc.mt.id = k ∧ 0 < tc.mt.timeout ∧ 0 < tc.mt.retries) ∨
    (k ∉ job.ids ∧ Retriable m k)

theorem retriable_start (hw : Wellformed dir m) (ht : Timers m) {m₀ : TaskManager} {ref : Ref}
    {job : Job} (htms : m₀.tms = m.tms) (hid : (m₀.heap ref).mt.id = job.mt.id)
    (htx : (m₀.heap ref).transactions = job.transactions) (hn : job.Numbered dir) (k : Nat) :
    Retriable (m₀.start ref) k ↔ ArmedBy m job k := by
  have hids : (Wellformed.startedJob (m₀.heap ref)).transactions.map (·.mt.id) = job.ids := by
    simp [Wellformed.startedJob, Job.mapMeta, Job.ids, htx]
  have harm : (m₀.start ref).tms = armAll (.reserve ref)
      (Wellformed.startedJob (m₀.heap ref)).transactions
      (m.tms.insert job.mt.id ⟨0, 0, none⟩) := by
    rw [Wellformed.start_tms, htms, hid]
  unfold Retriable
  rw [harm]
  rcases armAll_cases (.reserve ref) (Wellformed.startedJob (m₀.heap ref)).transactions
    (m.tms.insert job.mt.id ⟨0, 0, none⟩) k with ⟨i, tc, hi, hk, he⟩ | ⟨hnot, he⟩
  · rw [he]
    obtain ⟨tc₀, htc₀, rfl⟩ : ∃ tc₀ ∈ job.transactions, tc = { tc₀ with mt := { tc₀.mt with
        state := .reserving, ringPrefix := (m₀.heap ref).mt.ringPrefix } } := by
      have hmem := List.mem_of_getElem? hi
      simp only [Wellformed.startedJob, Job.mapMeta, htx, List.mem_map] at hmem
      obtain ⟨tc₀, h₀, h₁⟩ := hmem
      exact ⟨tc₀, h₀, h₁.symm⟩
    constructor
    · rintro ⟨tm, htm, hd, hr⟩
      cases htm
      exact .inl ⟨tc₀, htc₀, hk, hd, hr⟩
    · rintro (⟨tc', htc', hk', hd, hr⟩ | ⟨hnot, -⟩)
      · have hnd : (job.transactions.map (·.mt.id)).Nodup := by
          have := dir.nodup job.mt.id
          rwa [← hn.ids] at this
        have : tc' = tc₀ := List.inj_on_of_nodup_map hnd htc' htc₀ (hk'.trans hk.symm)
        subst this
        exact ⟨_, rfl, hd, hr⟩
      · have hmem : tc₀.mt.id ∈ job.ids := List.mem_map_of_mem htc₀
        exact absurd (hk ▸ hmem) hnot
  · rw [he]
    rw [hids] at hnot
    have hnew : (∃ tm, (m.tms.insert job.mt.id ⟨0, 0, none⟩)[k]? = some tm ∧ 0 < tm.d ∧ 0 < tm.r) ↔
        Retriable m k := by
      rw [ExtMap.getElem?_insert]
      split
      · next hkey =>
        have hno := not_retriable_job hw ht hn.mem
        rw [hkey] at hno
        simp [hno]
      · rfl
    rw [hnew]
    constructor
    · exact fun h => .inr ⟨hnot, h⟩
    · rintro (⟨tc, htc, hk, -⟩ | ⟨-, h⟩)
      · exact absurd (hk ▸ List.mem_map_of_mem htc) hnot
      · exact h

/-- The message names what the coordinator has in memory: a queued job a task, a
report a started job and one of its transactions, and a timeout that would be
retried no transaction of another job. A job is also started by the reload that an
update of a task not in memory causes. -/
def Addressed (dir : Directory) (m : TaskManager) : Event → Prop
  | .recovery _ _ => True
  | .task _ => True
  | .job i => ∀ ref ∈ m.jobs[i]?, (m.trs[(m.heap ref).mt.taskId]?).isSome
  | .update mt loaded =>
    mt.state = .taskClear ∨
      match m.trs[mt.taskId]? with
      | some tr =>
        tr.mt.state = .finished ∨ Names dir (fun k => (m.tjs[k]?).isSome) (Retriable m) mt
      | none => ∀ job ∈ firstUnfinished loaded,
        Names dir (fun k => job.mt.id = k ∨ (m.tjs[k]?).isSome) (ArmedBy m job) mt

theorem isSome_update (hw : Wellformed dir m) (ht : Timers m) (mt : Meta)
    {loaded : Option (Task × Nat)} (hs : Stored dir mt.taskId loaded) :
    (m.wait (.update mt loaded)).isSome ↔ Addressed dir m (.update mt loaded) := by
  simp only [wait, Addressed]
  by_cases hc : mt.state = .taskClear
  · simp [hc]
  · simp only [hc, if_false, false_or, find]
    cases htr : m.trs[mt.taskId]? with
    | some tr =>
      by_cases hf : tr.mt.state = .finished
      · simp [hf]
      · simpa [hf] using isSome_handle hw ht mt
    | none =>
      obtain ⟨m₁, r, hr, hm⟩ := reload_total m hs
      simp only [hr]
      cases hu : firstUnfinished loaded with
      | none =>
        simp only [hu] at hm
        simp [hm]
      | some job =>
        simp only [hu] at hm
        obtain ⟨tr, m₀, ref, rfl, hstate, rfl, htjs, htms, hid, htx, hn⟩ := hm
        have hw₁ := hw.reloaded hs (reload_cases hr)
        have ht₁ := ht.reloaded hw hs (reload_cases hr)
        simp only [hstate, if_false, isSome_handle hw₁ ht₁, Option.mem_def, Option.some.injEq,
          forall_eq']
        refine Names.congr mt (fun k => ?_) (retriable_start hw ht htms hid htx hn)
        rw [Wellformed.start_tjs, ExtMap.getElem?_insert, hid, htjs]
        split <;> simp_all

/-- An iteration of `Wait` in a reachable state completes exactly on the messages
that are addressed to what the coordinator has in memory. -/
theorem wait_completes_iff {e : Event}
    (hm : Reaches wait (fun _ e => e.Numbered dir) empty m) (he : e.Numbered dir) :
    (m.wait e).isSome ↔ Addressed dir m e := by
  obtain ⟨hw, ht⟩ := sound_of_reaches hm
  cases e with
  | recovery k loaded =>
    simp only [wait, Addressed, iff_true]
    cases m.trs[k]? with
    | some tr => rfl
    | none =>
      obtain ⟨m₁, r, hr, -⟩ := reload_total m he
      simp [hr]
  | task task =>
    have hne := (show task.Numbered dir from he).jobs
    simp only [wait, Addressed, iff_true, newTaskResource, hne, if_false, set]
    cases hv : task.validator with
    | some v => simp
    | none =>
      cases hj : task.jobs with
      | nil => exact absurd hj hne
      | cons job jobs => simp [List.range'_succ]
  | job i =>
    simp only [wait, Addressed]
    cases hi : m.jobs[i]? with
    | none => simp
    | some ref =>
      simp only [Option.mem_def, Option.some.injEq, forall_eq']
      cases m.trs[(m.heap ref).mt.taskId]? <;> simp
  | update mt loaded => exact isSome_update hw ht mt he

/-- With job 2 of the sample task started, a report of its transaction 3 is handled. -/
theorem wait_completes_iff_sample :
    ∃ m, Reaches wait (fun _ e => e.Numbered sampleDirectory) empty m ∧
      Addressed sampleDirectory m (.update (sampleMeta 2 3 .confirmed) none) ∧
      (m.wait (.update (sampleMeta 2 3 .confirmed) none)).isSome := by
  obtain ⟨m, hm, hs⟩ := exists_reaches_of_checkedRun wait
    (fun _ e => e.Numbered sampleDirectory)
    (fun m => (m.wait (.update (sampleMeta 2 3 .confirmed) none)).isSome) empty
    [.task sampleTask, .job 0] (by decide)
  exact ⟨m, hm, (wait_completes_iff hm (by decide)).mp hs, hs⟩

/-- A report of job 5 while job 2 of the task is running stops the coordinator, and so
does the queued job 5 when job 2 timed out late and the task was cleared. -/
theorem wait_fails_on_late_messages :
    (∃ m, Reaches wait (fun _ e => e.Numbered sampleDirectory) empty m ∧
      m.wait (.update (sampleMeta 5 6 .confirmed) none) = none) ∧
    ∃ m, Reaches wait (fun _ e => e.Numbered sampleDirectory) empty m ∧ m.wait (.job 0) = none := by
  constructor
  · obtain ⟨m, hm, hs⟩ := exists_reaches_of_checkedRun wait
      (fun _ e => e.Numbered sampleDirectory)
      (fun m => (m.wait (.update (sampleMeta 5 6 .confirmed) none)).isNone) empty
      [.task sampleTask, .job 0] (by decide)
    exact ⟨m, hm, Option.isNone_iff_eq_none.mp hs⟩
  · obtain ⟨m, hm, hs⟩ := exists_reaches_of_checkedRun wait
      (fun _ e => e.Numbered sampleDirectory) (fun m => (m.wait (.job 0)).isNone) empty
      [.task sampleTask, .job 0,
        .update (sampleMeta 2 3 .confirmed) none, .update (sampleMeta 2 4 .confirmed) none,
        .update (sampleMeta 2 3 .finished) none, .update (sampleMeta 2 4 .finished) none,
        .update (sampleMeta 2 0 .jobTimeout) none, .update (sampleMeta 0 1 .taskClear) none] (by decide)
    exact ⟨m, hm, Option.isNone_iff_eq_none.mp hs⟩

end TaskManager

end Tarantula
