import Tarantula.CoordinatorSteps
import Tarantula.MessageSafety

/-! Timeouts that arrive too late: their timer has been closed or replaced while they were
queued, or their job has finished. -/

namespace Tarantula

namespace TaskManager

variable {dir : Directory} {m m' : TaskManager}

/-- No task, job or transaction differs, nothing is logged, and no timer has lost retries. -/
structure Untouched (m m' : TaskManager) : Prop where
  trs : m'.trs = m.trs
  tjs : m'.tjs = m.tjs
  heap : m'.heap = m.heap
  jobs : m'.jobs = m.jobs
  log : m'.log = m.log
  budget : ∀ (id : Nat) tm, m.tms[id]? = some tm → 0 < tm.d → 0 < tm.r → m'.tms[id]? = some tm

/-- A timeout of a task in memory finds the task finished, no timer of the transaction with
retries left, or no resource of the job. One of another task finds it stored as finished, if
at all. -/
def Spent (m : TaskManager) (mt : Meta) (loaded : Option (Task × Nat)) : Prop :=
  (∀ tr ∈ m.trs[mt.taskId]?, tr.mt.state = .finished ∨
    if mt.state = .jobTimeout then (m.tjs[mt.jobId]?).isNone = true
    else ∀ tm ∈ m.tms[mt.id]?, ¬ (0 < tm.d ∧ 0 < tm.r)) ∧
  ((m.trs[mt.taskId]?).isNone = true → ∀ p ∈ loaded, p.1.mt.state = .finished)

instance (m : TaskManager) (mt : Meta) (loaded : Option (Task × Nat)) : Decidable (Spent m mt loaded) :=
  inferInstanceAs (Decidable ((∀ tr ∈ m.trs[mt.taskId]?, _ ∨ ite _ _ _) ∧ (_ → _)))

theorem Untouched.refl (m : TaskManager) : Untouched m m := ⟨rfl, rfl, rfl, rfl, rfl, fun _ _ h _ _ => h⟩

theorem Untouched.erase {key : Nat} (h : ∀ tm ∈ m.tms[key]?, ¬ (0 < tm.d ∧ 0 < tm.r)) :
    Untouched m { m with tms := m.tms.erase key } := by
  refine ⟨rfl, rfl, rfl, rfl, rfl, fun id tm htm hd hr => ?_⟩
  rw [ExtMap.getElem?_erase, if_neg]
  · exact htm
  · rintro rfl
    exact h tm htm ⟨hd, hr⟩

theorem wait_in_memory {mt : Meta} {tr : TaskResource} (loaded : Option (Task × Nat))
    (hc : mt.state ≠ .taskClear) (htr : m.trs[mt.taskId]? = some tr) :
    m.wait (.update mt loaded) = if tr.mt.state = .finished then some m else m.handle mt := by
  simp [wait, hc, find, htr]

theorem timeout_spent {key : Nat} (mt : Meta) (h : ∀ tm ∈ m.tms[key]?, ¬ (0 < tm.d ∧ 0 < tm.r)) :
    ∃ m', m.timeout key mt = some m' ∧ Untouched m m' := by
  unfold timeout
  cases htm : m.tms[key]? with
  | none => exact ⟨m, rfl, .refl m⟩
  | some tm =>
    simp only [h tm htm, if_false]
    exact ⟨_, rfl, .erase h⟩

theorem timeout_resends (ht : Timers m) {key : Nat} {tm : Timeout} {mt : Meta} (htm : m.tms[key]? = some tm)
    (hr : 0 < tm.d ∧ 0 < tm.r) (h : m.timeout key mt = some m') : m'.log ≠ m.log := by
  obtain ⟨p, tjs, hp, hm'⟩ := timeout_resend h htm hr
  obtain ⟨tc, htc, -, -⟩ := (ht _ tm htm).tc p hp
  have hlog : m'.log = p.ask tc.mt :: m.log := by
    rw [hm']
    exact retry_log htc
  rw [hlog]
  exact List.cons_ne_self _ _

theorem jobTimeout_ends (hw : Wellformed dir m) {mt : Meta} (hst : mt.state = .jobTimeout) {tj : JobResource}
    (hj : m.tjs[mt.jobId]? = some tj) (h : m.handle mt = some m') :
    ∃ tr, m'.trs[dir.task mt.jobId]? = some tr ∧ tr.mt.state = .finished := by
  simp only [handle, hst] at h
  split at h
  · cases h
  · next m₁ hm₁ =>
    split at h
    · next hj₁ =>
      have hkeep := started_of_frame (Frame.timeout hm₁) mt.jobId
      simp [hj, hj₁] at hkeep
    · next tj₁ hj₁ =>
      have htask := (hw.of_frame (.timeout hm₁)).taskId hj₁
      obtain ⟨tr, m₂, -, -, rfl⟩ := stop_cases h
      refine ⟨{ tr with canceled := true, mt := { tr.mt with state := .finished } }, ?_, rfl⟩
      rw [← htask]
      simp [end_, note, putTask]

/-- A timeout that is received is inert exactly if it is spent. -/
theorem timeout_inert (hs : Sound dir m) {mt : Meta} (he : TimerEvent dir mt) {loaded : Option (Task × Nat)}
    (hl : Stored dir mt.taskId loaded) :
    (∃ m', m.wait (.update mt loaded) = some m' ∧ Untouched m m') ↔ Spent m mt loaded := by
  obtain ⟨hjob, hst⟩ := he
  have hc : mt.state ≠ .taskClear := by rcases hst with h | h <;> simp [h]
  cases htr : m.trs[mt.taskId]? with
  | none =>
    have hspent : Spent m mt loaded ↔ ∀ p ∈ loaded, p.1.mt.state = .finished := by simp [Spent, htr]
    rw [hspent]
    constructor
    · rintro ⟨m', hm, hx⟩ ⟨task, rev⟩ hp
      by_contra hne
      obtain ⟨m₁, r, hf, hm'⟩ := update_cases hc hm
      have hload : m.reload mt.taskId loaded = some (m₁, r) := by simpa [find, htr] using hf
      rw [Option.mem_def.mp hp] at hload
      have hin := reload_unfinished hne hload
      have hout : (m'.trs[mt.taskId]?).isSome := by
        rcases hm' with rfl | ⟨tr, -, -, hh⟩
        · exact hin
        · rw [← Option.isSome_map, (Frame.handled hh).trs, Option.isSome_map]
          exact hin
      rw [hx.trs, htr] at hout
      cases hout
    · intro hfin
      refine ⟨m, ?_, .refl m⟩
      simp [wait, hc, find, htr, reload_of_finished hl hfin]
  | some tr =>
    rw [wait_in_memory loaded hc htr]
    by_cases hfin : tr.mt.state = .finished
    · simp only [hfin, if_true]
      have hspent : Spent m mt loaded := by simp [Spent, htr, hfin]
      exact ⟨fun _ => hspent, fun _ => ⟨m, rfl, .refl m⟩⟩
    · simp only [hfin, if_false]
      have hspent : Spent m mt loaded ↔ if mt.state = .jobTimeout then (m.tjs[mt.jobId]?).isNone = true
          else ∀ tm ∈ m.tms[mt.id]?, ¬ (0 < tm.d ∧ 0 < tm.r) := by simp [Spent, htr, hfin]
      rw [hspent]
      rcases hst with hst | hst
      · rw [if_pos hst]
        constructor
        · rintro ⟨m', hm, hx⟩
          cases hj : m.tjs[mt.jobId]? with
          | none => rfl
          | some tj =>
            obtain ⟨tr', htr', hend⟩ := jobTimeout_ends hs.wellformed hst hj hm
            rw [hx.trs, dir.task_of_mem hjob, htr] at htr'
            cases htr'
            exact absurd hend hfin
        · intro hj
          have hno := not_retriable_job hs.wellformed hs.timers hjob
          obtain ⟨m₁, hm₁, hx⟩ := timeout_spent mt fun tm htm hr => hno ⟨tm, htm, hr⟩
          refine ⟨m₁, ?_, hx⟩
          simp [handle, hst, hm₁, hx.tjs, Option.isNone_iff_eq_none.mp hj]
      · rw [if_neg (by simp [hst])]
        have hhandle : m.handle mt = m.timeout mt.id mt := by simp [handle, hst]
        rw [hhandle]
        constructor
        · rintro ⟨m', hm, hx⟩ tm htm hr
          exact timeout_resends hs.timers htm hr hm hx.log
        · exact timeout_spent mt

end TaskManager

namespace Coordinator

open TaskManager (Untouched Spent)

variable {dir : Directory} {c : Coordinator}

/-- The message comes from a timer that is no longer stored under its key, or belongs to a job
that has finished. -/
def Stale (c : Coordinator) (q : Notice) : Prop :=
  ∃ n ∈ q.timer, c.wheel.current[q.mt.timerKey]? ≠ some n ∨
    .finished q.mt.jobId ∈ history q.mt.jobId c.tm.log

instance (c : Coordinator) (q : Notice) : Decidable (Stale c q) :=
  inferInstanceAs (Decidable (∃ n ∈ q.timer, _))

/-- In every reachable state, processing a stale timeout that is queued in `updates` changes no
task, job or transaction, asks for nothing and takes no retries from a timer, exactly if it
finds neither a timer with retries left nor, if it is the timeout of a job, the job. -/
theorem stale_timeout_inert (h : Reaches step (Legal dir) empty c) {q : Notice} (hq : q ∈ c.updates.buf)
    (hs : Stale c q) {loaded : Option (Task × Nat)} (hl : Stored dir q.mt.taskId loaded) :
    (∃ m', c.tm.wait (.update q.mt loaded) = some m' ∧ Untouched c.tm m') ↔ Spent c.tm q.mt loaded := by
  have hsound := Sound.of_reaches (fun _ _ h => h) h
  obtain ⟨n, hn, -⟩ := hs
  have hproper := hsound.queued q hq
  simp only [Notice.Proper, Option.mem_def.mp hn] at hproper
  exact TaskManager.timeout_inert hsound.tm hproper hl

/-- The timer of transaction 3 fires while its `CONFIRMED` is queued, and finds nothing under
its id once the report has closed it. -/
theorem stale_timeout_inert_sample :
    ∃ c q, Reaches step (Legal sampleDirectory) empty c ∧ q ∈ c.updates.buf ∧ Stale c q ∧
      q.mt.state = .transactionTimeout ∧
      ∃ m', c.tm.wait (.update q.mt none) = some m' ∧ Untouched c.tm m' := by
  obtain ⟨c, hc, q, hq, hs, hst, hx⟩ := exists_reaches_of_checkedRun step (Legal sampleDirectory)
    (fun c => ∃ q ∈ c.updates.buf, Stale c q ∧ q.mt.state = .transactionTimeout ∧ Spent c.tm q.mt none) empty
    [.task sampleTask, .send 0, .job, .report (sampleMeta 2 3 .confirmed), .fire 1, .update none]
      (by decide +kernel)
  exact ⟨c, q, hc, hq, hs, hst, (stale_timeout_inert hc hq hs (by simp [Stored])).mpr hx⟩

/-- Timers fire while the reports that close them are queued. The one of transaction 3, closed
by its `CONFIRMED`, resends an `AskFinish` and takes a retry from the timer that the decision
has stored under the same id. The one of job 2 ends the task although the job has finished
and the next one is queued. -/
theorem stale_timeouts_act :
    (∃ c q m', Reaches step (Legal sampleDirectory) empty c ∧ q ∈ c.updates.buf ∧ Stale c q ∧
      q.mt.state = .transactionTimeout ∧ c.tm.wait (.update q.mt none) = some m' ∧
      m'.log.length = c.tm.log.length + 1 ∧
      (c.tm.tms[3]?).map (·.r) = some 3 ∧ (m'.tms[3]?).map (·.r) = some 2) ∧
    ∃ c q m', Reaches step (Legal sampleDirectory) empty c ∧ q ∈ c.updates.buf ∧ Stale c q ∧
      q.mt.state = .jobTimeout ∧ c.tm.wait (.update q.mt none) = some m' ∧
      .finished 2 ∈ history 2 c.tm.log ∧ c.tm.jobs ≠ [] ∧
      (c.tm.trs[1]?).any (fun tr => tr.mt.state ≠ .finished) ∧
      (m'.trs[1]?).any (fun tr => tr.mt.state = .finished) := by
  constructor
  · obtain ⟨c, hc, q, hq, hs, hst, m', hm, hx⟩ := exists_reaches_of_checkedRun step (Legal sampleDirectory)
      (fun c => ∃ q ∈ c.updates.buf, Stale c q ∧ q.mt.state = .transactionTimeout ∧
        ∃ m' ∈ c.tm.wait (.update q.mt none), m'.log.length = c.tm.log.length + 1 ∧
          (c.tm.tms[3]?).map (·.r) = some 3 ∧ (m'.tms[3]?).map (·.r) = some 2) empty
      [.task sampleTask, .send 0, .job, .report (sampleMeta 2 3 .confirmed),
        .report (sampleMeta 2 4 .confirmed), .fire 1, .update none, .update none] (by decide +kernel)
    exact ⟨c, q, m', hc, hq, hs, hst, hm, hx⟩
  · obtain ⟨c, hc, q, hq, hs, hst, m', hm, hx⟩ := exists_reaches_of_checkedRun step (Legal sampleDirectory)
      (fun c => ∃ q ∈ c.updates.buf, Stale c q ∧ q.mt.state = .jobTimeout ∧
        ∃ m' ∈ c.tm.wait (.update q.mt none), .finished 2 ∈ history 2 c.tm.log ∧ c.tm.jobs ≠ [] ∧
          (c.tm.trs[1]?).any (fun tr => tr.mt.state ≠ .finished) ∧
          (m'.trs[1]?).any (fun tr => tr.mt.state = .finished)) empty
      [.task sampleTask, .send 0, .job, .report (sampleMeta 2 3 .confirmed),
        .report (sampleMeta 2 4 .confirmed),
        .report (sampleMeta 2 3 .finished), .report (sampleMeta 2 4 .finished), .fire 0,
        .update none, .update none, .update none, .update none] (by decide +kernel)
    exact ⟨c, q, m', hc, hq, hs, hst, hm, hx⟩

end Coordinator

end Tarantula
