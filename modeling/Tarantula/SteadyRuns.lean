import Tarantula.MessageSafety
import Tarantula.TimerSteps

/-! Runs in which no task is reloaded, no report is `CANCELED` and no job times out. Whatever
the order of the reports, an iteration says something only about jobs that have been started. -/

namespace Tarantula

def Act.job : Act → Option Nat
  | .started k | .confirmed k | .canceled k | .finished k | .stopped k => some k
  | .askReserve tc | .askFinish tc => some tc.jobId
  | .received mt => some mt.jobId
  | .ended _ | .updateTask _ => none

def Unheard (k : Nat) (log : List Act) : Prop := ∀ a ∈ log, a.job ≠ some k

theorem unheard_append {k : Nat} {acts log : List Act} :
    Unheard k (acts ++ log) ↔ Unheard k acts ∧ Unheard k log := by
  simp only [Unheard, List.mem_append, or_imp, forall_and]

theorem Unheard.not_started {k : Nat} {log : List Act} (h : Unheard k log) : .started k ∉ log :=
  fun hs => h _ hs rfl

theorem Unheard.not_finished {k : Nat} {log : List Act} (h : Unheard k log) : .finished k ∉ log :=
  fun hs => h _ hs rfl

namespace TaskManager

/-- The task is in memory, or what is stored of it has ended. -/
def NoReload (m : TaskManager) (k : Nat) (loaded : Option (Task × Nat)) : Prop :=
  m.trs[k]? = none → ∀ p ∈ loaded, p.1.mt.state = .finished

instance (m : TaskManager) (k : Nat) (loaded : Option (Task × Nat)) : Decidable (NoReload m k loaded) :=
  inferInstanceAs (Decidable (_ → _))

/-- A task is issued once, unfinished, and cleared after its end, a report names the task of its job, and
a `FINISHED` answers an `AskFinish`. There is no reload, no `CANCELED` and no job timeout. -/
def Steady (dir : Directory) (m : TaskManager) : Event → Prop
  | .recovery k loaded => Stored dir k loaded ∧ NoReload m k loaded
  | .task t => t.Numbered dir ∧ t.mt.state ≠ .finished ∧ m.trs[t.mt.id]? = none ∧ .ended t.mt.id ∉ m.log
  | .job _ => True
  | .update mt loaded => (Stored dir mt.taskId loaded ∧ NoReload m mt.taskId loaded) ∧
    (mt.state ≠ .canceled ∧ mt.state ≠ .jobTimeout) ∧
    if mt.state = .taskClear then .ended mt.id ∈ m.log
    else mt.taskId = dir.task mt.jobId ∧
      (mt.state = .finished → asked mt.jobId mt.id m.log = true)

instance (dir : Directory) (m : TaskManager) : ∀ e : Event, Decidable (Steady dir m e)
  | .recovery _ _ => inferInstanceAs (Decidable (_ ∧ _))
  | .task _ => inferInstanceAs (Decidable (_ ∧ _))
  | .job _ => inferInstanceAs (Decidable True)
  | .update _ _ => inferInstanceAs (Decidable (_ ∧ _ ∧ ite _ _ _))

variable {dir : Directory} {m m' : TaskManager}

theorem Steady.numbered {e : Event} (h : Steady dir m e) : e.Numbered dir := by
  cases e with
  | recovery => exact h.1
  | task => exact h.1
  | job => trivial
  | update => exact h.1.1

structure SteadyReport (dir : Directory) (m : TaskManager) (mt : Meta) : Prop where
  canceled : mt.state ≠ .canceled
  jobTimeout : mt.state ≠ .jobTimeout
  finished : mt.state = .finished → asked mt.jobId mt.id m.log = true
  task : ∃ tr, m.trs[dir.task mt.jobId]? = some tr ∧ tr.mt.state ≠ .finished

/-- The iterations of a steady run. -/
inductive SteadyStep (dir : Directory) (m : TaskManager) : TaskManager → Prop
  | idle : SteadyStep dir m m
  | task {t tr ref} (ht : t.Numbered dir) (hne : t.mt.state ≠ .finished) (hk : m.trs[t.mt.id]? = none)
      (he : .ended t.mt.id ∉ m.log)
      (hn : NewTask m t tr) (hf : tr.Fresh) (hp : tr.pending = tr.refs) (hr : tr.pending[0]? = some ref)
      (h : m.wait (.task t) = some (((m.introduce t.mt.id t tr).readyJob tr ref).schedule tr ref)) :
      SteadyStep dir m (((m.introduce t.mt.id t tr).readyJob tr ref).schedule tr ref)
  | job {i ref tr} (hi : m.jobs[i]? = some ref) (ht : m.trs[(m.heap ref).mt.taskId]? = some tr) :
      SteadyStep dir m ({ m with jobs := m.jobs.eraseIdx i }.start ref)
  | clear {T} (he : .ended T ∈ m.log) : SteadyStep dir m (m.clearResource T)
  | handled {mt m'} (hr : SteadyReport dir m mt) (h : Handled m mt m') : SteadyStep dir m m'

theorem steady_cases {e : Event} (he : Steady dir m e) (h : m.wait e = some m') : SteadyStep dir m m' := by
  cases e with
  | recovery k loaded =>
    simp only [wait] at h
    split at h
    · cases h
      exact .idle
    · next hk =>
      rw [reload_of_finished he.1 (he.2 hk)] at h
      cases h
      exact .idle
  | task t =>
    obtain ⟨tr, ref, hn, hf, hp, hr, rfl⟩ := task_enters h
    exact .task he.1 he.2.1 he.2.2.1 he.2.2.2 hn hf hp hr h
  | job i =>
    cases wait_cases h with
    | idle => exact .idle
    | job hi ht => exact .job hi ht
  | update mt loaded =>
    obtain ⟨⟨hst, hno⟩, ⟨hcan, hjob⟩, hrest⟩ := he
    split at hrest
    · next hc =>
      simp only [wait, hc, if_true] at h
      cases h
      exact .clear hrest
    · next hc =>
      obtain ⟨m₁, r, hf, hm'⟩ := update_cases hc h
      have hm : m₁ = m ∧ ∀ tr, r = some tr → m.trs[mt.taskId]? = some tr := by
        cases hk : m.trs[mt.taskId]? with
        | some tr =>
          simp only [find, hk, Option.some.injEq, Prod.mk.injEq] at hf
          exact ⟨hf.1.symm, fun tr' htr' => by rw [← htr', ← hf.2]⟩
        | none =>
          simp only [find, hk, reload_of_finished hst (hno hk), Option.some.injEq, Prod.mk.injEq] at hf
          exact ⟨hf.1.symm, fun tr' htr' => by simp [← hf.2] at htr'⟩
      obtain ⟨rfl, htr⟩ := hm
      rcases hm' with rfl | ⟨tr, rfl, hne, hh⟩
      · exact .idle
      · exact .handled ⟨hcan, hjob, hrest.2, tr, hrest.1 ▸ htr tr rfl, hne⟩ hh

def Housed (m : TaskManager) : Prop :=
  ∀ r ∈ m.jobs, ∃ tr, m.trs[(m.heap r).mt.taskId]? = some tr ∧ tr.mt.state ≠ .finished ∧ r ∈ tr.refs

theorem SteadyStep.micro (h : SteadyStep dir m m') (hq : Housed m) :
    Micro dir (fun _ _ => True) m m' := by
  cases h with
  | idle => exact .idle
  | task ht _ hk _ _ _ _ _ h => exact .task ht hk h
  | @job i ref tr hi ht =>
    obtain ⟨tr', htr', -, hr⟩ := hq ref (List.mem_of_getElem? hi)
    obtain rfl := Option.some.inj (ht.symm.trans htr')
    exact .job hi ht hr
  | clear => exact .clear _
  | handled _ h => exact .handled trivial h

/-- A job that has not been started has no timers. -/
def Untimely (dir : Directory) (m : TaskManager) : Prop :=
  ∀ k, .started k ∉ m.log → ∀ id ∈ dir.txs k, m.tms[id]? = none

theorem Untimely.micro (h : Untimely dir m) (hs : Sound dir m) (hu : dir.Unique)
    (hstarted : ∀ k tj, m.tjs[k]? = some tj → .started k ∈ m.log)
    (hm : Micro dir (fun _ _ => True) m m') : Untimely dir m' := by
  intro k hk id hid
  have hold : ∀ acts, m'.log = acts ++ m.log → m.tms[id]? = none := by
    intro acts hl
    refine h k (fun hx => hk ?_) id hid
    rw [hl]
    exact List.mem_append_right _ hx
  cases TimerStep.of_micro (k := k) hs hu hm with
  | quiet _ _ htms hl =>
    obtain ⟨acts, hl, -⟩ := hl
    rw [htms id hid, hold acts hl]
  | closed _ _ _ _ _ htms hl =>
    obtain ⟨acts, hl, -⟩ := hl
    rw [htms id hid, hold acts hl, ite_self]
  | stopped _ _ htms => exact htms id hid
  | expired _ _ _ htms hl => rw [htms id hid, hold [] hl, ite_self]
  | @resent key tm p tc _ htm _ _ _ _ hmem _ _ hl =>
    have hnone := h k (fun hx => hk (by rw [hl]; exact List.mem_cons_of_mem _ hx)) key hmem
    simp [hnone] at htm
  | started _ _ _ _ hl =>
    obtain ⟨acts, -, hl⟩ := hl
    exact absurd (by rw [hl]; simp) hk
  | decided _ _ _ hj _ _ _ hl =>
    exact absurd (by rw [hl]; simp [hstarted k _ hj]) hk

/-- What the handling of a report adds to the log: requests of started jobs, the report and
the call of `confirmed` it may cause. The last `FINISHED` of a job moves its task. -/
inductive Told (dir : Directory) (m : TaskManager) (mt : Meta) (m' : TaskManager) : Prop
  | calm (acts : List Act) (htrs : m'.trs = m.trs) (hjobs : m'.jobs = m.jobs) (hl : m'.log = acts ++ m.log)
      (ha : ∀ a ∈ acts, (∃ tc, (a = .askReserve tc ∨ a = .askFinish tc) ∧ .started tc.jobId ∈ m.log) ∨
        (m.tjs[mt.jobId]?).isSome ∧ (a = .received mt ∨ a = .confirmed mt.jobId))
  | next {tj tr ref} (hf : LastFinished m mt tj) (htr : m.trs[dir.task mt.jobId]? = some tr)
      (hp : tr.pending[tr.jobIndex + 1]? = some ref)
      (htrs : m'.trs = m.trs.insert (dir.task mt.jobId) { tr with jobIndex := tr.jobIndex + 1 })
      (hjobs : m'.jobs = m.jobs ++ [ref])
      (hl : m'.log = [.updateTask tr.mt.id, .finished mt.jobId, .received mt] ++ m.log)
  | finish {tj tr} (hf : LastFinished m mt tj) (htr : m.trs[dir.task mt.jobId]? = some tr)
      (hp : tr.pending[tr.jobIndex + 1]? = none)
      (htrs : m'.trs = m.trs.insert (dir.task mt.jobId) { tr with mt := { tr.mt with state := .finished } })
      (hjobs : m'.jobs = m.jobs)
      (hl : m'.log = [.ended tr.mt.id, .updateTask tr.mt.id, .finished mt.jobId, .received mt] ++ m.log)

theorem timeout_told (hs : Sound dir m) (ht : Untimely dir m) {mt : Meta}
    (h : m.timeout mt.id mt = some m') : Told dir m mt m' := by
  cases timeout_cases h with
  | absent => exact .calm [] rfl rfl rfl (by simp)
  | last => exact .calm [] rfl rfl rfl (by simp)
  | @resend tm p m₁ htm hp hr =>
    obtain ⟨tjs, rfl⟩ := retried_eq hr
    have hent := hs.timers mt.id tm htm
    obtain ⟨tc, htc, hid, -⟩ := hent.tc p hp
    have hnum := hs.wellformed.numbered _ (hent.lt p hp)
    have hmem := List.mem_of_getElem? htc
    -- the timer is there, so the job of its transaction has been started
    have hstarted : .started tc.mt.jobId ∈ m.log := by
      by_contra hnot
      have htx : mt.id ∈ dir.txs tc.mt.jobId := by
        rw [hnum.jobId tc hmem, ← hnum.ids, ← hid]
        exact List.mem_map_of_mem hmem
      simp [ht _ hnot _ htx] at htm
    have hlog : ({ m with tjs, tms := m.tms.insert mt.id { tm with r := tm.r - 1 } }.retry p).log =
        [p.ask tc.mt] ++ m.log := retry_log htc
    have hkeep := timeout_keeps h
    refine .calm [p.ask tc.mt] hkeep.1 hkeep.2.1 hlog fun a ha => .inl ⟨tc.mt, ?_, hstarted⟩
    rw [List.mem_singleton.mp ha]
    cases p with
    | reserve => exact .inl rfl
    | finish => exact .inr rfl

theorem handled_told (hs : Sound dir m) (ht : Untimely dir m)
    (hstarted : ∀ k tj, m.tjs[k]? = some tj → .started k ∈ m.log) {mt : Meta} (hr : SteadyReport dir m mt)
    (h : Handled m mt m') : Told dir m mt m' := by
  cases h with
  | duplicate hj => exact .calm [.received mt] rfl rfl rfl (by simp [hj])
  | confirm hj => exact .calm [.received mt] rfl rfl rfl (by simp [hj])
  | @confirmLast tj t hj htj =>
    have hc := Frame.counted { t with confirmed := t.confirmed + 1 } hj htj rfl
    obtain ⟨-, asks, ha, hlog⟩ := confirmed_decision (hs.wellformed.of_frame hc) mt.jobId
      (tj.count mt.id { t with confirmed := t.confirmed + 1 }) (by simp [counted, putJob])
    refine .calm ((asks.map Act.askFinish).reverse ++ [.confirmed mt.jobId, .received mt]) rfl rfl
      (by rw [hlog, List.append_assoc]; rfl) fun a hmem => ?_
    rcases List.mem_append.mp hmem with hmem | hmem
    · obtain ⟨tc, htc, rfl⟩ := List.mem_map.mp (List.mem_reverse.mp hmem)
      exact .inl ⟨tc, .inr rfl, ha.job tc htc ▸ hstarted _ tj hj⟩
    · refine .inr ⟨by simp [hj], ?_⟩
      simp only [List.mem_cons, List.not_mem_nil, or_false] at hmem
      exact hmem.symm
  | finish hj => exact .calm [.received mt] rfl rfl rfl (by simp [hj])
  | @finishLast tj t _ hj htj hst hf hl hm =>
    have hlast : LastFinished m mt tj := ⟨hj, hst, hl, t, htj, hf⟩
    obtain ⟨tr, htr, ⟨ref, hn, htrs, hjobs, hlog⟩ | ⟨hn, htrs, hjobs, hlog⟩⟩ :=
      finished_last hs.wellformed hj htj hm
    · exact .next hlast htr hn htrs hjobs hlog
    · exact .finish hlast htr hn htrs hjobs hlog
  | cancel _ hst => exact absurd hst hr.canceled
  | timeout _ hm => exact timeout_told hs ht hm
  | jobTimeout hst => exact absurd hst hr.jobTimeout
  | stop hst => exact absurd hst hr.jobTimeout
  | ignored => exact .calm [] rfl rfl rfl (by simp)

/-- What is added to the log is about the job of the report, which is started, or asks a
transaction of a started job once more. -/
theorem Told.about {mt : Meta} (h : Told dir m mt m') : ∃ acts, m'.log = acts ++ m.log ∧
    ∀ a ∈ acts, ∀ k, a.job = some k → mt.jobId = k ∧ (m.tjs[k]?).isSome ∨
      (∃ tc, a = .askReserve tc ∨ a = .askFinish tc) ∧ .started k ∈ m.log := by
  have hlast : ∀ {tj} {acts : List Act}, LastFinished m mt tj →
      (∀ a ∈ acts, ∀ k, a.job = some k → mt.jobId = k) → ∀ a ∈ acts, ∀ k, a.job = some k →
        mt.jobId = k ∧ (m.tjs[k]?).isSome ∨
          (∃ tc, a = .askReserve tc ∨ a = .askFinish tc) ∧ .started k ∈ m.log := by
    intro tj acts hf hacts a ha k hk
    obtain rfl := hacts a ha k hk
    exact .inl ⟨rfl, by simp [hf.job]⟩
  cases h with
  | calm acts _ _ hl ha =>
    refine ⟨acts, hl, fun a hmem k hk => ?_⟩
    rcases ha a hmem with ⟨tc, rfl | rfl, hs⟩ | ⟨hj, rfl | rfl⟩ <;> cases hk
    · exact .inr ⟨⟨tc, .inl rfl⟩, hs⟩
    · exact .inr ⟨⟨tc, .inr rfl⟩, hs⟩
    · exact .inl ⟨rfl, hj⟩
    · exact .inl ⟨rfl, hj⟩
  | next hf _ _ _ _ hl => exact ⟨_, hl, hlast hf (by simp [Act.job])⟩
  | finish hf _ _ _ _ hl => exact ⟨_, hl, hlast hf (by simp [Act.job])⟩

end TaskManager

end Tarantula
