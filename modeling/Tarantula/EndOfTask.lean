import Mathlib.Data.List.Perm.Basic
import Tarantula.Lists
import Tarantula.ReservationMoves

/-! The end of a task: which runs leave no confirmed reservation undecided. -/

namespace Tarantula

instance (dir : Directory) : ∀ log : List Act, Decidable (EndsSettled dir log)
  | [] => inferInstanceAs (Decidable True)
  | a :: log =>
    have := instDecidableEndsSettled dir log
    match a with
    | .ended T => inferInstanceAs (Decidable ((∀ j ∈ dir.jobs T, Settled dir j log) ∧ _))
    | .started _ | .askReserve _ | .askFinish _ | .received _ | .confirmed _ | .canceled _
    | .finished _ | .stopped _ | .updateTask _ => this

/-- Events as the cluster produces them: a task comes in once, a queued job is received
while its task is in memory, an update names the task of its job, and a task is cleared
after its end. -/
def Event.Genuine (dir : Directory) (m : TaskManager) : Event → Prop
  | .recovery taskId loaded => Stored dir taskId loaded
  | .task t => t.Numbered dir ∧ m.trs[t.mt.id]? = none
  | .job i => ∀ ref ∈ m.jobs[i]?, ∀ tr ∈ m.trs[(m.heap ref).mt.taskId]?, ref ∈ tr.refs
  | .update mt loaded => Stored dir mt.taskId loaded ∧
    if mt.state = .taskClear then ∀ tr ∈ m.trs[mt.id]?, tr.mt.state = .finished
    else mt.taskId = dir.task mt.jobId

instance (dir : Directory) (m : TaskManager) : ∀ e : Event, Decidable (e.Genuine dir m)
  | .recovery taskId loaded => inferInstanceAs (Decidable (Stored dir taskId loaded))
  | .task _ => inferInstanceAs (Decidable (_ ∧ _))
  | .job i => inferInstanceAs (Decidable (∀ ref ∈ m.jobs[i]?, _))
  | .update _ _ => inferInstanceAs (Decidable (_ ∧ ite _ _ _))

theorem Event.Genuine.numbered {dir : Directory} {m : TaskManager} {e : Event}
    (h : e.Genuine dir m) : e.Numbered dir := by
  cases e with
  | recovery => exact h
  | job => trivial
  | task => exact h.1
  | update => exact h.1

namespace TaskManager

/-- A first `FINISHED` answers an `AskFinish`, and a started job times out only while no
undecided job of its task has counted a report. -/
def Undisturbed (dir : Directory) (m : TaskManager) (mt : Meta) : Prop :=
  (mt.state = .finished → reported mt.jobId mt.id .finished (history mt.jobId m.log) = true ∨
    decided mt.jobId (history mt.jobId m.log) = true) ∧
  (mt.state = .jobTimeout → ∀ k ∈ dir.jobs (dir.task mt.jobId), ∀ tj ∈ m.tjs[k]?,
    decided k (history k m.log) = true ∨ tj.confirmed = 0)

instance (dir : Directory) (m : TaskManager) (mt : Meta) : Decidable (Undisturbed dir m mt) :=
  inferInstanceAs (Decidable ((_ → _) ∧ (_ → ∀ k ∈ _, ∀ tj ∈ m.tjs[k]?, _)))

/-- Genuine events that leave the phases of the jobs undisturbed. -/
def Orderly (dir : Directory) (m : TaskManager) (e : Event) : Prop :=
  e.Genuine dir m ∧ OnHandled (Undisturbed dir) m e

instance (dir : Directory) (m : TaskManager) (e : Event) : Decidable (Orderly dir m e) :=
  inferInstanceAs (Decidable (_ ∧ _))

variable {dir : Directory} {m m' : TaskManager}

namespace Reserved

theorem job (h : Reserved dir m) (hw : Wellformed dir m) {i : Nat} {ref : Ref} {tr : TaskResource}
    (hi : m.jobs[i]? = some ref) (ht : m.trs[(m.heap ref).mt.taskId]? = some tr)
    (hr : ref ∈ tr.refs) : Reserved dir ({ m with jobs := m.jobs.eraseIdx i }.start ref) := by
  have hq : Reserved dir { m with jobs := m.jobs.eraseIdx i } := by
    refine ⟨fun T tr' hT hne => ?_, h.owed, h.settled, h.ends⟩
    exact (h.order T tr' hT hne).sub (fun k tj hj _ => ⟨hj, rfl⟩) ((List.eraseIdx_sublist ..).filter _)
  refine hq.start (hw.of_frame (.dequeue m i)) (hw.queued ref (List.mem_of_getElem? hi))
    (fun tr' ht' hne => ?_) (by simp [ht])
  obtain rfl : tr = tr' := Option.some.inj (ht.symm.trans ht')
  have h₀ := h.order _ tr ht hne
  refine ⟨fun r hr' hmem => ?_, h₀.queued ref (List.mem_of_getElem? hi) hr⟩
  have hx := not_mem_of_eraseIdx h₀.once hi (by simpa using hr) r hr'
  simp [hmem] at hx

theorem find (h : Reserved dir m) (hw : Wellformed dir m) {mt : Meta}
    {loaded : Option (Task × Nat)} {r : Option TaskResource} (hs : Stored dir mt.taskId loaded)
    (hf : m.find mt loaded = some (m', r)) :
    Reserved dir m' ∧ ∀ tr, r = some tr → m'.trs[mt.taskId]? = some tr := by
  rcases find_cases hf with ⟨rfl, tr, rfl, htr⟩ | ⟨hk, hr⟩
  · refine ⟨h, ?_⟩
    rintro _ ⟨⟩
    exact htr
  · refine ⟨h.reloaded hw hs hk hr, ?_⟩
    rintro tr rfl
    cases hr with
    | started => simp [TaskManager.start, note, putJob, readyJob, writeMeta, TaskManager.introduce, putTask]

theorem waited (h : Reserved dir m) (hs : Sound dir m) {e : Event} (he : Orderly dir m e)
    (hw : Waited m e m') : Reserved dir m' := by
  obtain ⟨hg, hon⟩ := he
  have hs' := hs.waited hg.numbered hw
  cases hw with
  | idle => exact h
  | recovered hk hr => exact h.reloaded hs.wellformed hg hk hr
  | @task task tr ref hn hp ha =>
    have hmem : ref ∈ tr.refs := by
      rw [TaskResource.refs, ← ha]
      exact List.mem_of_getElem? hp
    exact h.introduce hs.wellformed hn hg.1 hg.2 [ref] [.updateTask tr.mt.id] (by simp) (by simpa using hmem)
      rfl rfl rfl rfl (by simp [NoEnd]) (.append _ [_] (by simp) (by simp))
      fun j => history_updateTask j _ _
  | job hi ht => exact h.job hs.wellformed hi ht (hg _ hi _ ht)
  | clear hst =>
    have hfin := hg.2
    rw [if_pos hst] at hfin
    exact h.clearResource hs.wellformed hfin
  | unloaded hk hr => exact h.reloaded hs.wellformed hg.1 hk hr
  | @handled mt loaded m₁ tr _ hc hf hne hh =>
    have htask := hg.2
    rw [if_neg hc] at htask
    obtain ⟨h₁, htr⟩ := h.find hs.wellformed hg.1 hf
    have hu := hon.apply hc hf hne
    exact h₁.handled (hs.find hg.1 hf) hs' ⟨htask ▸ htr tr rfl, hne, hu.1, hu.2⟩ hh

end Reserved

/-- In every run of orderly events, whenever a task ended, every transaction of its jobs
that had reported `CONFIRMED` had been asked to finish. -/
theorem ends_settled (h : Reaches wait (Orderly dir) empty m) : EndsSettled dir m.log := by
  have hinv : Sound dir m ∧ Reserved dir m := by
    refine Reaches.invariant (I := fun m => Sound dir m ∧ Reserved dir m) h ⟨.empty dir, .empty dir⟩ ?_
    rintro s e t ⟨hs, hr⟩ he hstep
    have hw := wait_cases hstep
    exact ⟨hs.waited he.1.numbered hw, hr.waited hs he hw⟩
  exact hinv.2.ends

/-- Job 2 is canceled after transaction 3 has confirmed, and the task ends when both
transactions have finished. -/
theorem ends_settled_sample :
    ∃ m, Reaches wait (Orderly sampleDirectory) empty m ∧
      (.ended 1 ∈ m.log ∧ reported 2 3 .confirmed m.log = true) ∧
      EndsSettled sampleDirectory m.log := by
  obtain ⟨m, hm, hs⟩ := exists_reaches_of_checkedRun wait (Orderly sampleDirectory)
    (fun m => .ended 1 ∈ m.log ∧ reported 2 3 .confirmed m.log = true) empty
    [.task sampleTask, .job 0, .update (sampleMeta 2 3 .confirmed) none,
      .update (sampleMeta 2 4 .canceled) none, .update (sampleMeta 2 3 .finished) none,
      .update (sampleMeta 2 4 .finished) none] (by decide)
  exact ⟨m, hm, hs, ends_settled hm⟩

/-- Job 2 times out after transaction 3 has confirmed: `stop` ends the task and asks
no transaction to finish. -/
theorem ends_unsettled_by_job_timeout :
    ∃ m, Reaches wait (fun m e => e.Genuine sampleDirectory m) empty m ∧
      ¬ EndsSettled sampleDirectory m.log :=
  exists_reaches_of_checkedRun wait (fun m e => e.Genuine sampleDirectory m)
    (fun m => ¬ EndsSettled sampleDirectory m.log) empty
    [.task sampleTask, .job 0, .update (sampleMeta 2 3 .confirmed) none,
      .update (sampleMeta 2 0 .jobTimeout) none] (by decide)

end TaskManager

end Tarantula
