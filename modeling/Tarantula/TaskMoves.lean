import Tarantula.LogMoves

/-! The coordinator seen from its tasks: what handling a report does to the task
resources, to the queue of jobs and to the tasks that have ended. -/

namespace Tarantula.TaskManager

/-- The report is the first `FINISHED` of its transaction and completes the join. -/
structure LastFinished (m : TaskManager) (mt : Meta) (tj : JobResource) : Prop where
  job : m.tjs[mt.jobId]? = some tj
  state : mt.state = .finished
  parties : tj.joinParties = tj.confirmed + 1
  first : ∃ t, tj.joining[mt.id]? = some t ∧ t.finished = 0

def NoEnd (acts : List Act) : Prop := ∀ t, .ended t ∉ acts

/-- The moves of task `T` when a report `mt` of one of its jobs is handled. -/
inductive TaskMove (m : TaskManager) (mt : Meta) (T : Nat) (m' : TaskManager) : Prop
  | calm (acts : List Act) (hs : mt.state ≠ .canceled) (htrs : m'.trs = m.trs) (hjobs : m'.jobs = m.jobs)
      (hl : m'.log = acts ++ m.log) (hn : NoEnd acts)
  | cancel {tr} (acts : List Act) (hs : mt.state = .canceled) (htr : m.trs[T]? = some tr)
      (htrs : m'.trs = m.trs.insert T { tr with jobIndex := tr.pending.length, canceled := true })
      (hjobs : m'.jobs = m.jobs) (hl : m'.log = acts ++ m.log) (hn : NoEnd acts)
  | next {tj tr ref} (hf : LastFinished m mt tj) (htr : m.trs[T]? = some tr)
      (hp : tr.pending[tr.jobIndex + 1]? = some ref)
      (htrs : m'.trs = m.trs.insert T { tr with jobIndex := tr.jobIndex + 1 })
      (hjobs : m'.jobs = m.jobs ++ [ref])
      (hl : m'.log = [.updateTask tr.mt.id, .finished mt.jobId, .received mt] ++ m.log)
  | finish {tj tr} (hf : LastFinished m mt tj) (htr : m.trs[T]? = some tr)
      (htrs : m'.trs = m.trs.insert T { tr with mt := { tr.mt with state := .finished } })
      (hjobs : m'.jobs = m.jobs)
      (hl : m'.log = .ended tr.mt.id ::
        ([.updateTask tr.mt.id, .finished mt.jobId, .received mt] ++ m.log))
  | stop {tj tr} (acts : List Act) (hs : mt.state = .jobTimeout) (hj : m.tjs[mt.jobId]? = some tj)
      (htr : m.trs[T]? = some tr)
      (htrs : m'.trs =
        m.trs.insert T { tr with mt := { tr.mt with state := .finished }, canceled := true })
      (hjobs : m'.jobs = m.jobs) (hl : m'.log = .ended tr.mt.id :: (acts ++ m.log))
      (hn : NoEnd acts) (hr : ∀ mt, .received mt ∉ acts)

variable {dir : Directory} {m m' : TaskManager}

theorem TaskMove.other {mt : Meta} {T T' : Nat} (h : TaskMove m mt T m') (hd : T' ≠ T) :
    m'.trs[T']? = m.trs[T']? := by
  have hinsert : ∀ tr, m'.trs = m.trs.insert T tr → m'.trs[T']? = m.trs[T']? := by
    intro tr htrs
    rw [htrs, ExtMap.getElem?_insert, if_neg hd.symm]
  cases h with
  | calm _ _ htrs => rw [htrs]
  | cancel _ _ _ htrs => exact hinsert _ htrs
  | next _ _ _ htrs => exact hinsert _ htrs
  | finish _ _ htrs => exact hinsert _ htrs
  | stop _ _ _ _ htrs => exact hinsert _ htrs

theorem timeout_keeps {key : Nat} {mt : Meta} (h : m.timeout key mt = some m') :
    m'.trs = m.trs ∧ m'.jobs = m.jobs ∧ m'.heap = m.heap ∧
      ∃ acts, m'.log = acts ++ m.log ∧ NoEnd acts ∧ ∀ mt, .received mt ∉ acts := by
  cases timeout_cases h with
  | absent => exact ⟨rfl, rfl, rfl, [], rfl, by simp [NoEnd], by simp⟩
  | last => exact ⟨rfl, rfl, rfl, [], rfl, by simp [NoEnd], by simp⟩
  | @resend tm p m₁ htm hp hr =>
    obtain ⟨tjs, rfl⟩ := retried_eq hr
    cases p with
    | reserve ref i => exact ⟨rfl, rfl, rfl, _, rfl, by simp [NoEnd], by simp⟩
    | finish ref i => exact ⟨rfl, rfl, rfl, _, rfl, by simp [NoEnd], by simp⟩

theorem finished_last (hw : Wellformed dir m) {mt : Meta} {tj : JobResource} {t : TransactionResource}
    (hj : m.tjs[mt.jobId]? = some tj) (ht : tj.joining[mt.id]? = some t)
    (h : (m.counted mt tj t { t with finished := t.finished + 1 }).finished mt.jobId
      (tj.count mt.id { t with finished := t.finished + 1 }) = some m') :
    ∃ tr, m.trs[dir.task mt.jobId]? = some tr ∧
      ((∃ ref, tr.pending[tr.jobIndex + 1]? = some ref ∧
        m'.trs = m.trs.insert (dir.task mt.jobId) { tr with jobIndex := tr.jobIndex + 1 } ∧
        m'.jobs = m.jobs ++ [ref] ∧
        m'.log = [.updateTask tr.mt.id, .finished mt.jobId, .received mt] ++ m.log) ∨
      tr.pending[tr.jobIndex + 1]? = none ∧
        m'.trs = m.trs.insert (dir.task mt.jobId) { tr with mt := { tr.mt with state := .finished } } ∧
        m'.jobs = m.jobs ∧
        m'.log = [.ended tr.mt.id, .updateTask tr.mt.id, .finished mt.jobId, .received mt] ++ m.log) := by
  have hc := Frame.counted { t with finished := t.finished + 1 } hj ht rfl
  have hj' : (m.counted mt tj t { t with finished := t.finished + 1 }).tjs[mt.jobId]? =
      some (tj.count mt.id { t with finished := t.finished + 1 }) := by simp [counted, putJob]
  have htask := (hw.of_frame hc).taskId hj'
  obtain ⟨tr, m₁, htr, rfl, hm'⟩ := finished_cases h
  rw [htask] at htr hm'
  rcases hm' with ⟨next, hn, rfl⟩ | ⟨hn, rfl⟩
  · exact ⟨tr, htr, .inl ⟨next, hn, rfl, rfl, rfl⟩⟩
  · exact ⟨tr, htr, .inr ⟨hn, rfl, rfl, rfl⟩⟩

theorem canceled_task (hw : Wellformed dir m) {mt : Meta} {tj : JobResource} (hj : m.tjs[mt.jobId]? = some tj)
    (h : (m.receive mt).canceled mt.jobId mt tj = some m') :
    ∃ tr, m.trs[dir.task mt.jobId]? = some tr ∧
      m'.trs = m.trs.insert (dir.task mt.jobId) { tr with jobIndex := tr.pending.length, canceled := true } ∧
      m'.jobs = m.jobs ∧ ∃ asks : List Meta, m'.log =
        ((asks.map Act.askFinish).reverse ++ [.canceled mt.jobId, .received mt]) ++ m.log := by
  have hwr := hw.of_frame (.receive m mt)
  obtain ⟨-, -, -, asks, -, hlog⟩ := canceled_decision hwr hj h
  obtain ⟨tj', tr, hc, htr, rfl⟩ := canceled_cases h
  have htask : ((m.receive mt).heap tj'.resource).mt.taskId = dir.task mt.jobId := by
    rw [show tj'.resource = _ from congrArg Prod.fst (JobResource.cancel_fixed hc)]
    exact hwr.taskId hj
  rw [htask] at htr
  refine ⟨tr, htr, by rw [← htask]; rfl, rfl, asks, ?_⟩
  rw [hlog, List.append_assoc]
  rfl

theorem handled_tasks (hw : Wellformed dir m) {mt : Meta} (h : Handled m mt m') :
    TaskMove m mt (dir.task mt.jobId) m' := by
  cases h with
  | duplicate _ _ hd =>
    refine .calm [.received mt] ?_ rfl rfl rfl (by simp [NoEnd])
    rcases hd with ⟨hs, -⟩ | ⟨hs, -⟩ <;> simp [hs]
  | confirm _ _ hs => exact .calm [.received mt] (by simp [hs]) rfl rfl rfl (by simp [NoEnd])
  | @confirmLast tj t hj htj hs =>
    have hc := Frame.counted { t with confirmed := t.confirmed + 1 } hj htj rfl
    obtain ⟨-, asks, -, hlog⟩ := confirmed_decision (hw.of_frame hc) mt.jobId
      (tj.count mt.id { t with confirmed := t.confirmed + 1 }) (by simp [counted, putJob])
    refine .calm ((asks.map Act.askFinish).reverse ++ [.confirmed mt.jobId, .received mt])
      (by simp [hs]) rfl rfl ?_ ?_
    · rw [hlog, List.append_assoc]
      rfl
    · simp [NoEnd]
  | finish _ _ hs => exact .calm [.received mt] (by simp [hs]) rfl rfl rfl (by simp [NoEnd])
  | @finishLast tj t _ hj htj hs hf hl hm =>
    have hlast : LastFinished m mt tj := ⟨hj, hs, hl, t, htj, hf⟩
    obtain ⟨tr, htr, ⟨ref, hn, htrs, hjobs, hlog⟩ | ⟨-, htrs, hjobs, hlog⟩⟩ := finished_last hw hj htj hm
    · exact .next hlast htr hn htrs hjobs hlog
    · exact .finish hlast htr htrs hjobs hlog
  | cancel hj hs hm =>
    obtain ⟨tr, htr, htrs, hjobs, asks, hlog⟩ := canceled_task hw hj hm
    exact .cancel _ hs htr htrs hjobs hlog (by simp [NoEnd])
  | timeout hs hm =>
    obtain ⟨htrs, hjobs, -, acts, hl, hn, -⟩ := timeout_keeps hm
    exact .calm acts (by simp [hs]) htrs hjobs hl hn
  | jobTimeout hs hm =>
    obtain ⟨htrs, hjobs, -, acts, hl, hn, -⟩ := timeout_keeps hm
    exact .calm acts (by simp [hs]) htrs hjobs hl hn
  | @stop m₁ tj _ hs hm hj he =>
    obtain ⟨htrs, hjobs, hheap, acts, hl, hn, hr⟩ := timeout_keeps hm
    have htask := (hw.of_frame (.timeout hm)).taskId hj
    obtain ⟨tj₀, hj₀⟩ : ∃ tj₀, m.tjs[mt.jobId]? = some tj₀ := by
      have hx := (Frame.timeout hm).tjs mt.jobId
      rw [hj] at hx
      obtain ⟨tj₀, hj₀, -⟩ := Option.map_eq_some_iff.mp hx.symm
      exact ⟨tj₀, hj₀⟩
    obtain ⟨tr, m₂, htr, hm₂, rfl⟩ := stop_cases he
    have h₂ : m₂.trs = m₁.trs ∧ m₂.jobs = m₁.jobs ∧ m₂.log = m₁.log := by
      rw [hm₂]
      split <;> exact ⟨rfl, rfl, rfl⟩
    rw [htask, htrs] at htr
    refine .stop ([.updateTask tr.mt.id, .stopped mt.jobId] ++ acts) hs hj₀ htr ?_ ?_ ?_ ?_ ?_
    · rw [htask, ← htrs, ← h₂.1]
      rfl
    · rw [← hjobs, ← h₂.2.1]
      rfl
    · rw [List.append_assoc, ← hl, ← h₂.2.2]
      rfl
    · simpa [NoEnd] using hn
    · simpa using hr
  | ignored hs => exact .calm [] hs.2.1 rfl rfl rfl (by simp [NoEnd])

end Tarantula.TaskManager
