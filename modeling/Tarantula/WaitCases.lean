import Tarantula.TaskManager

/-! What one iteration of `Wait` can do, branch by branch. Every invariant of the
coordinator is proved from these cases and never unfolds the loop again. -/

namespace Tarantula

/-- The records of a phase stand under the ids of the transactions; the others are as they were. -/
theorem armAll_cases (c : Nat → Retrying) (tcs : List Transaction) (tms : IdMap Timeout) (key : Nat) :
    (∃ i tc, tcs[i]? = some tc ∧ tc.mt.id = key ∧
      (armAll c tcs tms)[key]? = some ⟨tc.mt.timeout, tc.mt.retries, some (c i)⟩) ∨
    (key ∉ tcs.map (·.mt.id) ∧ (armAll c tcs tms)[key]? = tms[key]?) := by
  rcases ExtMap.getElem?_insertEach (·.mt.id)
    (fun i tc => (⟨tc.mt.timeout, tc.mt.retries, some (c i)⟩ : Timeout)) tcs 0 tms key
    with ⟨n, tc, hn, hk, he⟩ | ⟨hnot, he⟩
  · rw [Nat.zero_add] at he
    exact .inl ⟨n, tc, hn, hk, he⟩
  · exact .inr ⟨hnot, he⟩

namespace TaskManager

def counted (m : TaskManager) (mt : Meta) (tj : JobResource) (t t' : TransactionResource) :
    TaskManager :=
  (m.receive mt).putJob mt.jobId (tj.count mt.id t')
    ((m.heap tj.resource).setState t.resource mt.state)

/-- The outcomes of the switch on a report of an unfinished task. -/
inductive Handled (m : TaskManager) (mt : Meta) : TaskManager → Prop
  | duplicate {tj t} (hj : m.tjs[mt.jobId]? = some tj) (ht : tj.joining[mt.id]? = some t)
      (hd : mt.state = .confirmed ∧ 0 < t.confirmed ∨ mt.state = .finished ∧ 0 < t.finished) :
      Handled m mt (m.receive mt)
  | confirm {tj t} (hj : m.tjs[mt.jobId]? = some tj) (ht : tj.joining[mt.id]? = some t)
      (hs : mt.state = .confirmed) (hf : t.confirmed = 0)
      (hl : tj.joinParties ≠ tj.confirmed + 1) :
      Handled m mt (m.counted mt tj t { t with confirmed := t.confirmed + 1 })
  | confirmLast {tj t} (hj : m.tjs[mt.jobId]? = some tj) (ht : tj.joining[mt.id]? = some t)
      (hs : mt.state = .confirmed) (hf : t.confirmed = 0)
      (hl : tj.joinParties = tj.confirmed + 1) :
      Handled m mt ((m.counted mt tj t { t with confirmed := t.confirmed + 1 }).confirmed mt.jobId
        (tj.count mt.id { t with confirmed := t.confirmed + 1 }))
  | finish {tj t} (hj : m.tjs[mt.jobId]? = some tj) (ht : tj.joining[mt.id]? = some t)
      (hs : mt.state = .finished) (hf : t.finished = 0)
      (hl : tj.joinParties ≠ tj.confirmed + 1) :
      Handled m mt (m.counted mt tj t { t with finished := t.finished + 1 })
  | finishLast {tj t m'} (hj : m.tjs[mt.jobId]? = some tj) (ht : tj.joining[mt.id]? = some t)
      (hs : mt.state = .finished) (hf : t.finished = 0)
      (hl : tj.joinParties = tj.confirmed + 1)
      (h : (m.counted mt tj t { t with finished := t.finished + 1 }).finished mt.jobId
        (tj.count mt.id { t with finished := t.finished + 1 }) = some m') :
      Handled m mt m'
  | cancel {tj m'} (hj : m.tjs[mt.jobId]? = some tj) (hs : mt.state = .canceled)
      (h : (m.receive mt).canceled mt.jobId mt tj = some m') : Handled m mt m'
  | timeout {m'} (hs : mt.state = .transactionTimeout) (h : m.timeout mt.id mt = some m') :
      Handled m mt m'
  | jobTimeout {m'} (hs : mt.state = .jobTimeout) (h : m.timeout mt.jobId mt = some m')
      (hj : m'.tjs[mt.jobId]? = none) : Handled m mt m'
  | stop {m₁ tj m'} (hs : mt.state = .jobTimeout) (h : m.timeout mt.jobId mt = some m₁)
      (hj : m₁.tjs[mt.jobId]? = some tj) (he : m₁.stop mt.jobId tj = some m') : Handled m mt m'
  | ignored (hs : mt.state ≠ .confirmed ∧ mt.state ≠ .canceled ∧ mt.state ≠ .finished ∧
      mt.state ≠ .transactionTimeout ∧ mt.state ≠ .jobTimeout) : Handled m mt m

theorem putJob_self {m : TaskManager} {key : Nat} {tj : JobResource}
    (h : m.tjs[key]? = some tj) : m.putJob key tj (m.heap tj.resource) = m := by
  simp only [putJob, ExtMap.insert_self h, Function.update_eq_self]

@[simp] theorem receive_tjs (m : TaskManager) (mt : Meta) : (m.receive mt).tjs = m.tjs := rfl
@[simp] theorem receive_trs (m : TaskManager) (mt : Meta) : (m.receive mt).trs = m.trs := rfl
@[simp] theorem receive_heap (m : TaskManager) (mt : Meta) : (m.receive mt).heap = m.heap := rfl
@[simp] theorem receive_next (m : TaskManager) (mt : Meta) : (m.receive mt).next = m.next := rfl
@[simp] theorem receive_jobs (m : TaskManager) (mt : Meta) : (m.receive mt).jobs = m.jobs := rfl
@[simp] theorem receive_log (m : TaskManager) (mt : Meta) :
    (m.receive mt).log = .received mt :: m.log := rfl
@[simp] theorem receive_tms (m : TaskManager) (mt : Meta) :
    (m.receive mt).tms = m.tms.erase mt.id := rfl

theorem handle_cases {m m' : TaskManager} {mt : Meta} (h : m.handle mt = some m') :
    Handled m mt m' := by
  unfold handle at h
  split at h
  · next hs =>
    simp only [receive_tjs, receive_heap] at h
    split at h
    · cases h
    · next tj hj =>
      simp only [JobResource.join, hs] at h
      cases ht : tj.joining[mt.id]? with
      | none => simp [ht] at h
      | some t =>
        by_cases hf : 0 < t.confirmed
        · simp only [ht, Option.map_some, hf, if_true, Option.some.injEq] at h
          have hp := putJob_self (m := m.receive mt) hj
          simp only [receive_heap] at hp
          simp only [hp] at h
          exact h ▸ .duplicate hj ht (.inl ⟨hs, hf⟩)
        · have hf0 : t.confirmed = 0 := by omega
          by_cases hl : tj.joinParties = tj.confirmed + 1
          · simp only [ht, Option.map_some, hf, if_false, hl, decide_true, if_true,
              Option.some.injEq] at h
            have hh := Handled.confirmLast hj ht hs hf0 hl
            simp only [counted, hs] at hh
            exact h ▸ hh
          · simp only [ht, Option.map_some, hf, if_false, hl, decide_false,
              Option.some.injEq, Bool.false_eq_true] at h
            have hh := Handled.confirm hj ht hs hf0 hl
            simp only [counted, hs] at hh
            exact h ▸ hh
  · next hs =>
    simp only [receive_tjs] at h
    split at h
    · cases h
    · next tj hj => exact .cancel hj hs h
  · next hs =>
    simp only [receive_tjs, receive_heap] at h
    split at h
    · cases h
    · next tj hj =>
      simp only [JobResource.join, hs] at h
      cases ht : tj.joining[mt.id]? with
      | none => simp [ht] at h
      | some t =>
        by_cases hf : 0 < t.finished
        · simp only [ht, Option.map_some, hf, if_true, Bool.false_eq_true, if_false,
            Option.some.injEq] at h
          have hp := putJob_self (m := m.receive mt) hj
          simp only [receive_heap] at hp
          simp only [hp] at h
          exact h ▸ .duplicate hj ht (.inr ⟨hs, hf⟩)
        · have hf0 : t.finished = 0 := by omega
          by_cases hl : tj.joinParties = tj.confirmed + 1
          · simp only [ht, Option.map_some, hf, if_false, hl, decide_true, if_true] at h
            exact .finishLast hj ht hs hf0 hl (by simpa only [counted, hs] using h)
          · simp only [ht, Option.map_some, hf, if_false, hl, decide_false,
              Option.some.injEq, Bool.false_eq_true] at h
            have hh := Handled.finish hj ht hs hf0 hl
            simp only [counted, hs] at hh
            exact h ▸ hh
  · next hs => exact .timeout hs h
  · next hs =>
    split at h
    · cases h
    · next m₁ he =>
      split at h
      · next hj =>
        cases h
        exact .jobTimeout hs he hj
      · next tj hj => exact .stop hs he hj h
  · next h₁ h₂ h₃ h₄ h₅ =>
    cases h
    exact .ignored ⟨h₁, h₂, h₃, h₄, h₅⟩

/-- The outcomes of `timeout` for the timer under `k`. -/
inductive TimedOut (m : TaskManager) (k : Nat) (mt : Meta) : TaskManager → Prop
  | absent : TimedOut m k mt m
  | last : TimedOut m k mt { m with tms := m.tms.erase k }
  | resend {tm p m₁} (htm : m.tms[k]? = some tm) (hp : tm.p = some p)
      (hr : m.retried mt = some m₁) :
      TimedOut m k mt ({ m₁ with tms := m₁.tms.insert k { tm with r := tm.r - 1 } }.retry p)

theorem timeout_entry {m m' : TaskManager} {k : Nat} {mt : Meta} (h : m.timeout k mt = some m') :
    m.tms[k]? = none ∧ m' = m ∨ ∃ tm, m.tms[k]? = some tm ∧
      (¬ (0 < tm.d ∧ 0 < tm.r) ∧ m' = { m with tms := m.tms.erase k } ∨
        (0 < tm.d ∧ 0 < tm.r) ∧ ∃ p m₁, tm.p = some p ∧ m.retried mt = some m₁ ∧
          m' = { m₁ with tms := m₁.tms.insert k { tm with r := tm.r - 1 } }.retry p) := by
  unfold timeout at h
  split at h
  · next hnone =>
    cases h
    exact .inl ⟨hnone, rfl⟩
  · next tm htm =>
    refine .inr ⟨tm, htm, ?_⟩
    split at h
    · next hz =>
      split at h
      · next m₁ p hr hp =>
        cases h
        exact .inr ⟨hz, p, m₁, hp, hr, rfl⟩
      · cases h
    · next hz =>
      cases h
      exact .inl ⟨hz, rfl⟩

theorem timeout_cases {m m' : TaskManager} {k : Nat} {mt : Meta}
    (h : m.timeout k mt = some m') : TimedOut m k mt m' := by
  rcases timeout_entry h with ⟨-, rfl⟩ | ⟨tm, htm, ⟨-, rfl⟩ | ⟨-, p, m₁, hp, hr, rfl⟩⟩
  · exact .absent
  · exact .last
  · exact .resend htm hp hr

theorem retried_cases {m m' : TaskManager} {mt : Meta} (h : m.retried mt = some m') :
    m' = m ∨ ∃ tj t, m.tjs[mt.jobId]? = some tj ∧
      tj.joining[mt.id]? = some t ∧ ∃ tj', tj' = { tj with
          joining := tj.joining.insert mt.id { t with retried := t.retried + 1 } } ∧
        m' = { m with tjs := m.tjs.insert mt.jobId tj' } := by
  unfold retried at h
  split at h
  · cases h
    exact .inl rfl
  · next tj hj =>
    obtain ⟨t, ht, he⟩ := Option.map_eq_some_iff.mp h
    exact .inr ⟨tj, t, hj, ht, _, rfl, he.symm⟩

theorem retried_eq {m m' : TaskManager} {mt : Meta} (h : m.retried mt = some m') :
    ∃ tjs, m' = { m with tjs := tjs } := by
  rcases retried_cases h with rfl | ⟨tj, t, -, -, tj', -, rfl⟩ <;> exact ⟨_, rfl⟩

theorem retry_tms (m : TaskManager) (p : Retrying) : (m.retry p).tms = m.tms := by
  cases p <;> rfl

theorem retry_tjs (m : TaskManager) (p : Retrying) : (m.retry p).tjs = m.tjs := by
  cases p <;> rfl

theorem timeout_resend {m m' : TaskManager} {k : Nat} {mt : Meta} {tm : Timeout}
    (h : m.timeout k mt = some m') (htm : m.tms[k]? = some tm) (hz : 0 < tm.d ∧ 0 < tm.r) :
    ∃ p tjs, tm.p = some p ∧
      m' = { m with tjs := tjs, tms := m.tms.insert k { tm with r := tm.r - 1 } }.retry p := by
  rcases timeout_entry h with ⟨hnone, -⟩ | ⟨tm', htm', hcase⟩
  · simp [htm] at hnone
  · obtain rfl := Option.some.inj (htm.symm.trans htm')
    rcases hcase with ⟨hnot, -⟩ | ⟨-, p, m₁, hp, hr, rfl⟩
    · exact absurd hz hnot
    · obtain ⟨tjs, rfl⟩ := retried_eq hr
      exact ⟨p, tjs, hp, rfl⟩

/-- The part of `canceled` that concerns the task and the running timers. -/
def abandon (m : TaskManager) (job : Job) (tr : TaskResource) : TaskManager :=
  let tr := { tr with jobIndex := tr.pending.length, canceled := true }
  { m.putTask job.mt.taskId tr with tms := closeAll job.transactions m.tms }

theorem canceled_cases {m m' : TaskManager} {key : Nat} {c : Meta} {t : JobResource}
    (h : m.canceled key c t = some m') :
    ∃ t' tr, t.cancel c = some t' ∧ m.trs[(m.heap t'.resource).mt.taskId]? = some tr ∧
      m' = ((m.abandon (m.heap t'.resource) tr).note [.canceled key]).decideAll key t'
        fun mt => { mt with state := .canceled, description := c.description } := by
  unfold canceled at h
  split at h
  · cases h
  · next t' hc =>
    dsimp only at h
    split at h
    · cases h
    · next tr htr =>
      cases h
      exact ⟨t', tr, hc, htr, rfl⟩

theorem finished_cases {m m' : TaskManager} {key : Nat} {t : JobResource}
    (h : m.finished key t = some m') :
    ∃ tr m₁, m.trs[(m.heap t.resource).mt.taskId]? = some tr ∧
      m₁ = ((m.closeTimer (m.heap t.resource).mt.id).writeMeta t.resource
        fun mt => { mt with state := .finished }).note [.finished key] ∧
      ((∃ next, tr.pending[tr.jobIndex + 1]? = some next ∧
          m' = ((m₁.putTask (m.heap t.resource).mt.taskId
              { tr with jobIndex := tr.jobIndex + 1 }).readyJob tr next).schedule tr next) ∨
        (tr.pending[tr.jobIndex + 1]? = none ∧
          m' = m₁.end_ (m.heap t.resource).mt.taskId tr)) := by
  unfold finished at h
  dsimp only at h
  split at h
  · cases h
  · next tr htr =>
    refine ⟨tr, _, htr, rfl, ?_⟩
    split at h
    · next next hn =>
      cases h
      exact .inl ⟨next, hn, rfl⟩
    · next hn =>
      cases h
      exact .inr ⟨hn, rfl⟩

theorem stop_cases {m m' : TaskManager} {key : Nat} {t : JobResource}
    (h : m.stop key t = some m') :
    ∃ tr m₁, m.trs[(m.heap t.resource).mt.taskId]? = some tr ∧
      m₁ = (match tr.validator with
        | none => m.putJob key { t with canceled := true } (m.heap t.resource)
        | some v => (m.putJob key { t with canceled := true } (m.heap t.resource)).writeMeta v
          fun mt => { mt with state := .finished }) ∧
      m' = ({ m₁ with tms := closeAll (m.heap t.resource).transactions m₁.tms }.note
        [.stopped key]).end_ (m.heap t.resource).mt.taskId { tr with canceled := true } := by
  unfold stop at h
  dsimp only at h
  split at h
  · cases h
  · next tr htr =>
    cases h
    exact ⟨tr, _, htr, rfl, rfl⟩

structure NewTask (m : TaskManager) (task : Task) (tr : TaskResource) : Prop where
  jobs : task.jobs ≠ []
  mt : tr.mt = task.mt
  refs : tr.validator.toList ++ tr.jobs = List.range' m.next task.allJobs.length
  pending : ∀ r ∈ tr.pending, r ∈ tr.validator.toList ++ tr.jobs
  canceled : tr.canceled = false

def introduce (m : TaskManager) (key : Nat) (task : Task) (tr : TaskResource) : TaskManager :=
  (m.alloc task.allJobs).putTask key tr

theorem newTaskResource_cases {m m' : TaskManager} {task : Task} {revision : Nat}
    {tr : TaskResource} (h : m.newTaskResource task revision = some (m', tr)) :
    m' = m.alloc task.allJobs ∧ tr.pending = [] ∧ NewTask m task tr := by
  unfold newTaskResource at h
  split at h
  · cases h
  · next hj =>
    simp only [Option.some.injEq, Prod.mk.injEq] at h
    obtain ⟨hm, htr⟩ := h
    subst hm htr
    refine ⟨rfl, rfl, hj, rfl, ?_, by simp, rfl⟩
    cases hv : task.validator with
    | none => simp [Task.allJobs, hv]
    | some v =>
      simp only [Task.allJobs, hv, Option.map_some, Option.toList_some, List.length_nil,
        List.singleton_append, List.length_cons, List.range'_succ, Nat.zero_add]

inductive Reloaded (m : TaskManager) (k : Nat) :
    Option (Task × Nat) → TaskManager → Option TaskResource → Prop
  | failed {loaded} : Reloaded m k loaded m none
  | jobless {task rev tr} (hn : NewTask m task tr) :
      Reloaded m k (some (task, rev)) (m.introduce k task tr) none
  | started {task rev tr ref rest} (hn : NewTask m task tr) (hs : task.mt.state ≠ .finished)
      (hp : tr.pending = ref :: rest) :
      Reloaded m k (some (task, rev))
        ((((m.introduce k task tr).readyJob tr ref).note [.updateTask tr.mt.id]).start ref) (some tr)

theorem reload_cases {m m' : TaskManager} {k : Nat} {loaded : Option (Task × Nat)}
    {r : Option TaskResource} (h : m.reload k loaded = some (m', r)) :
    Reloaded m k loaded m' r := by
  unfold reload at h
  split at h
  · cases h
    exact .failed
  · next task revision =>
    split at h
    · cases h
    · next m₁ tr hnew =>
      obtain ⟨rfl, -, hn⟩ := newTaskResource_cases hnew
      split at h
      · cases h
        exact .failed
      · next hs =>
        have hn' := hn.mt ▸ hs
        dsimp only at h
        split at h
        · cases h
          exact .jobless { hn with pending := fun r hr => (List.mem_filter.mp hr).1 }
        · next ref rest hp =>
          cases h
          exact .started { hn with pending := fun r hr => (List.mem_filter.mp hr).1 } hn' hp

theorem find_cases {m m' : TaskManager} {mt : Meta} {loaded : Option (Task × Nat)}
    {r : Option TaskResource} (h : m.find mt loaded = some (m', r)) :
    (m' = m ∧ ∃ tr, r = some tr ∧ m.trs[mt.taskId]? = some tr) ∨
      (m.trs[mt.taskId]? = none ∧ Reloaded m mt.taskId loaded m' r) := by
  unfold find at h
  split at h
  · next tr htr =>
    cases h
    exact .inl ⟨rfl, tr, rfl, htr⟩
  · next hk => exact .inr ⟨hk, reload_cases h⟩

inductive Waited (m : TaskManager) : Event → TaskManager → Prop
  | idle {e} : Waited m e m
  | recovered {k loaded m' r} (hk : m.trs[k]? = none) (h : Reloaded m k loaded m' r) :
      Waited m (.recovery k loaded) m'
  | task {task tr ref} (hn : NewTask m task tr) (hp : tr.pending[tr.jobIndex]? = some ref)
      (ha : tr.pending = tr.validator.toList ++ tr.jobs) :
      Waited m (.task task)
        (((m.introduce task.mt.id task tr).readyJob tr ref).schedule tr ref)
  | job {i ref tr} (hi : m.jobs[i]? = some ref)
      (ht : m.trs[(m.heap ref).mt.taskId]? = some tr) :
      Waited m (.job i) ({ m with jobs := m.jobs.eraseIdx i }.start ref)
  | clear {mt loaded} (hs : mt.state = .taskClear) :
      Waited m (.update mt loaded) (m.clearResource mt.id)
  | unloaded {mt loaded m'} (hk : m.trs[mt.taskId]? = none)
      (h : Reloaded m mt.taskId loaded m' none) : Waited m (.update mt loaded) m'
  | handled {mt loaded m₁ tr m'} (hs : mt.state ≠ .taskClear)
      (hf : m.find mt loaded = some (m₁, some tr)) (he : tr.mt.state ≠ .finished)
      (h : Handled m₁ mt m') : Waited m (.update mt loaded) m'

theorem wait_cases {m m' : TaskManager} {e : Event} (h : m.wait e = some m') : Waited m e m' := by
  cases e with
  | recovery k loaded =>
    simp only [wait] at h
    split at h
    · cases h
      exact .idle
    · next hk =>
      obtain ⟨⟨m₁, r⟩, hr, rfl⟩ := Option.map_eq_some_iff.mp h
      exact .recovered hk (reload_cases hr)
  | task task =>
    simp only [wait] at h
    split at h
    · cases h
    · next m₁ tr hnew =>
      obtain ⟨rfl, hp, hn⟩ := newTaskResource_cases hnew
      simp only [set] at h
      split at h
      · cases h
      · next ref href =>
        cases h
        have hn' : NewTask m task { tr with
            pending := tr.pending ++ tr.validator.toList ++ tr.jobs, jobIndex := 0 } :=
          { hn with pending := by simp [hp] }
        exact .task hn' href (by simp [hp])
  | job i =>
    simp only [wait] at h
    split at h
    · cases h
      exact .idle
    · next ref hi =>
      split at h
      · cases h
      · next tr ht =>
        cases h
        exact .job hi ht
  | update mt loaded =>
    simp only [wait] at h
    split at h
    · next hs =>
      cases h
      exact .clear hs
    · next hs =>
      split at h
      · cases h
      · next m₁ hf =>
        cases h
        obtain ⟨-, tr, hr, -⟩ | ⟨hk, hr⟩ := find_cases hf
        · cases hr
        · exact .unloaded hk hr
      · next m₁ tr hf =>
        split at h
        · next he =>
          cases h
          obtain ⟨rfl, -⟩ | ⟨-, hr⟩ := find_cases hf
          · exact .idle
          · cases hr with
            | started hn hs' _ => exact absurd (hn.mt ▸ he) hs'
        · next he => exact .handled hs hf he (handle_cases h)

end TaskManager

end Tarantula
