import Tarantula.ActiveTasks

/-! What `reload` leaves behind. It takes the task into `trs` before it has looked for a job to start,
so that with no job left it fails and the task stays. -/

namespace Tarantula.TaskManager

open Wellformed

/-- The stored task can be read, and where it is not finished it has a job that is not. -/
def Reloadable (loaded : Option (Task × Nat)) : Prop := (∀ p ∈ loaded, p.1.jobs ≠ []) ∧ Loadable loaded

/-- The task is in `trs`, the job in `tjs`, and the timers of the job and of its transactions run. -/
structure Reinstated (m m' : TaskManager) (k : Nat) (tr : TaskResource) (job : Job) : Prop where
  trs : m'.trs = m.trs.insert k tr
  tjs : ∃ j, m'.tjs = m.tjs.insert job.mt.id j ∧ (m'.heap j.resource).mt.id = job.mt.id ∧
    (m'.heap j.resource).ids = job.ids ∧ j.joinParties = job.transactions.length
  timer : job.mt.id ∈ m'.tms
  armed : ∀ tc ∈ job.transactions, ∃ tc' ∈ job.transactions, tc'.mt.id = tc.mt.id ∧
    ∃ p, m'.tms[tc.mt.id]? = some ⟨tc'.mt.timeout, tc'.mt.retries, p⟩
  others : ∀ id, id ≠ job.mt.id → id ∉ job.ids → m'.tms[id]? = m.tms[id]?

variable {m : TaskManager} {k : Nat}

theorem reinstated_start {m₀ : TaskManager} {ref : Ref} {tr : TaskResource} {job : Job}
    (htrs : m₀.trs = m.trs.insert k tr) (htjs : m₀.tjs = m.tjs) (htms : m₀.tms = m.tms)
    (hid : (m₀.heap ref).mt.id = job.mt.id) (htx : (m₀.heap ref).transactions = job.transactions) :
    Reinstated m (m₀.start ref) k tr job := by
  have hheap : (m₀.start ref).heap ref = startedJob (m₀.heap ref) := by simp [start, putJob, note, startedJob]
  have harm : (m₀.start ref).tms = armAll (.reserve ref) (startedJob (m₀.heap ref)).transactions
      (m.tms.insert job.mt.id ⟨0, 0, none⟩) := by rw [start_tms, htms, hid]
  have hids : (startedJob (m₀.heap ref)).transactions.map (·.mt.id) = job.ids := by
    simp [startedJob, Job.mapMeta, Job.ids, htx]
  have hcases := armAll_cases (.reserve ref) (startedJob (m₀.heap ref)).transactions
    (m.tms.insert job.mt.id ⟨0, 0, none⟩)
  refine ⟨htrs, ⟨startedResource ref (m₀.heap ref), ?_, ?_, ?_, ?_⟩, ?_, ?_, ?_⟩
  · rw [start_tjs, hid, htjs]
  · exact (congrArg (·.mt.id) hheap).trans hid
  · exact (congrArg Job.ids hheap).trans hids
  · simp [startedResource, startedJob, Job.mapMeta, htx]
  · rw [harm]
    rcases hcases job.mt.id with ⟨i, a, -, -, he⟩ | ⟨-, he⟩
    · exact ExtMap.mem_of_getElem? he
    · rw [ExtMap.getElem?_insert, if_pos rfl] at he
      exact ExtMap.mem_of_getElem? he
  · intro tc htc
    have hmem : tc.mt.id ∈ job.ids := List.mem_map_of_mem htc
    rcases hcases tc.mt.id with ⟨i, a, ha, hk, he⟩ | ⟨hnot, -⟩
    · have ha' := List.mem_of_getElem? ha
      rw [startedJob, Job.mapMeta, htx] at ha'
      obtain ⟨tc', htc', rfl⟩ := List.mem_map.mp ha'
      refine ⟨tc', htc', hk, some (.reserve ref i), ?_⟩
      rw [harm]
      exact he
    · rw [hids] at hnot
      exact absurd hmem hnot
  · intro id hne hnot
    rcases hcases id with ⟨i, a, ha, hk, -⟩ | ⟨-, he⟩
    · have hmem : id ∈ job.ids := by
        rw [← hids, ← hk]
        exact List.mem_map_of_mem (List.mem_of_getElem? ha)
      exact absurd hmem hnot
    · rw [harm, he, ExtMap.getElem?_insert, if_neg (Ne.symm hne)]

theorem reload_eq (m : TaskManager) (k : Nat) {task : Task} (rev : Nat) (hjobs : task.jobs ≠ [])
    (hne : task.mt.state ≠ .finished) :
    match task.allJobs.find? fun job => job.mt.state ≠ .finished with
    | none => ∃ m' tr, m.reload k (some (task, rev)) = some (m', none) ∧ m'.trs = m.trs.insert k tr ∧
        ∃ r ∈ tr.jobs, m.next ≤ r
    | some job => ∃ m' tr, m.reload k (some (task, rev)) = some (m', some tr) ∧ Reinstated m m' k tr job := by
  have hpos : 0 < task.jobs.length := List.length_pos_of_ne_nil hjobs
  obtain ⟨tr, hnew, hrefs⟩ : ∃ tr, m.newTaskResource task rev = some (m.alloc task.allJobs, tr) ∧
      ∃ r ∈ tr.jobs, m.next ≤ r := by
    rw [newTaskResource, if_neg hjobs]
    refine ⟨_, rfl, m.next + task.validator.toList.length, ?_, Nat.le_add_right _ _⟩
    exact List.mem_range'_1.mpr ⟨Nat.le_refl _, by omega⟩
  obtain ⟨-, -, hn⟩ := newTaskResource_cases hnew
  have hstate : tr.mt.state ≠ .finished := by rwa [hn.mt]
  have hfind := head_unfinished hn
  unfold reload
  simp only [hnew, hstate, if_false]
  cases hp : (tr.validator.toList ++ tr.jobs).filter fun r =>
      ((m.alloc task.allJobs).heap r).mt.state ≠ .finished with
  | nil =>
    rw [hp] at hfind
    rw [← hfind]
    exact ⟨_, _, rfl, rfl, hrefs⟩
  | cons ref rest =>
    rw [hp] at hfind
    rw [← hfind]
    refine ⟨_, _, rfl, reinstated_start rfl rfl rfl ?_ ?_⟩
    · simp [note, readyJob, writeMeta, putTask]
    · simp [note, readyJob, writeMeta, putTask]

/-- `reload` either returns the task, with the task, its first unfinished job and the timers of the job in
place, or fails and leaves everything as it was, exactly where the stored task can be read and has a job
left if it is not finished. The objects of an older entry of the task are older than those of a reload. -/
theorem reload_all_or_nothing_iff {m : TaskManager} {k : Nat}
    (hold : ∀ tr, m.trs[k]? = some tr → ∀ r ∈ tr.jobs, r < m.next) (loaded : Option (Task × Nat)) :
    ((∃ m' tr task rev job, loaded = some (task, rev) ∧
        task.allJobs.find? (fun job => job.mt.state ≠ .finished) = some job ∧
        m.reload k loaded = some (m', some tr) ∧ Reinstated m m' k tr job) ∨
      ∃ m', m.reload k loaded = some (m', none) ∧ m'.trs = m.trs ∧ m'.tjs = m.tjs ∧ m'.tms = m.tms) ↔
    Reloadable loaded := by
  cases loaded with
  | none =>
    refine ⟨fun _ => ?_, fun _ => .inr ⟨m, rfl, rfl, rfl, rfl⟩⟩
    simp [Reloadable, Loadable]
  | some p =>
    obtain ⟨task, rev⟩ := p
    have hiff : Reloadable (some (task, rev)) ↔ task.jobs ≠ [] ∧
        (task.mt.state ≠ .finished → ∃ job ∈ task.allJobs, job.mt.state ≠ .finished) := by
      simp [Reloadable, Loadable]
    rw [hiff]
    by_cases hjobs : task.jobs = []
    · -- the resource of a task reads its first job
      have hnone : m.reload k (some (task, rev)) = none := by
        rw [reload, newTaskResource, if_pos hjobs]
      simp [hnone, hjobs]
    by_cases hfin : task.mt.state = .finished
    · refine iff_of_true (.inr ⟨m, ?_, rfl, rfl, rfl⟩) ⟨hjobs, fun hne => absurd hfin hne⟩
      rw [reload, newTaskResource, if_neg hjobs]
      exact if_pos hfin
    · have hreload := reload_eq m k rev hjobs hfin
      cases hfind : task.allJobs.find? fun job => job.mt.state ≠ .finished with
      | none =>
        rw [hfind] at hreload
        obtain ⟨m', tr, hr, htrs, r, hmem, hle⟩ := hreload
        have hnone := List.find?_eq_none.mp hfind
        refine iff_of_false ?_ ?_
        · rintro (⟨m₁, tr₁, task₁, rev₁, job, hl, hjob, -⟩ | ⟨m₁, hr₁, htrs₁, -⟩)
          · cases hl
            rw [hfind] at hjob
            cases hjob
          · rw [hr] at hr₁
            cases hr₁
            have hentry : m.trs[k]? = some tr := by rw [← htrs₁, htrs, ExtMap.getElem?_insert, if_pos rfl]
            exact absurd (hold tr hentry r hmem) (Nat.not_lt.mpr hle)
        · rintro ⟨-, hex⟩
          obtain ⟨job, hjob, hne⟩ := hex hfin
          simpa [hne] using hnone job hjob
      | some job =>
        rw [hfind] at hreload
        obtain ⟨m', tr, hr, hre⟩ := hreload
        have hne : job.mt.state ≠ .finished := by simpa using List.find?_some hfind
        exact iff_of_true (.inl ⟨m', tr, task, rev, job, rfl, hfind, hr, hre⟩)
          ⟨hjobs, fun _ => ⟨job, List.mem_of_find?_eq_some hfind, hne⟩⟩

section Sample

/-- The task has begun and its first job is not finished. -/
theorem reload_all_or_nothing_sample : Reloadable (some (sampleTask, 1)) ∧
    ∃ m' tr job, empty.reload 1 (some (sampleTask, 1)) = some (m', some tr) ∧ job.mt.id = 2 ∧
      Reinstated empty m' 1 tr job := by
  have hready : Reloadable (some (sampleTask, 1)) := by
    simp [Reloadable, Loadable, sampleTask, Task.allJobs, sampleMeta]
  have hret : (empty.reload 1 (some (sampleTask, 1))).map (·.2.isSome) = some true := rfl
  have hold : ∀ tr, empty.trs[1]? = some tr → ∀ r ∈ tr.jobs, r < empty.next := by
    intro tr htr
    cases htr
  rcases (reload_all_or_nothing_iff hold _).mpr hready with
    ⟨m', tr, task, rev, job, hl, hfind, hr, hre⟩ | ⟨m', hr, -⟩
  · cases hl
    have hjob : some job.mt.id = some 2 := congrArg (Option.map fun job : Job => job.mt.id) hfind.symm
    exact ⟨hready, m', tr, job, hr, Option.some.inj hjob, hre⟩
  · rw [hr] at hret
    cases hret

def spentTask : Task := { sampleTask with jobs := [⟨sampleMeta 0 2 .finished, [⟨sampleMeta 2 3 .finished⟩]⟩] }

/-- The task cannot be reloaded, but it is in `trs` from then on. -/
theorem failed_reload_keeps_task : ∃ m', empty.reload 1 (some (spentTask, 1)) = some (m', none) ∧
    (empty.trs[1]?).isSome = false ∧ (m'.trs[1]?).isSome = true := by
  refine ⟨_, rfl, ?_, ?_⟩
  · rfl
  · decide

end Sample

end Tarantula.TaskManager
