import Tarantula.ActiveTasks
import Tarantula.CoordinatorSteps
import Tarantula.StaleTimers

/-! Tasks that nothing would ever move or end. As long as no job is dropped on its way to the
loop and no timeout of a job is lost, every unfinished task has a job on its way or a job
timer. -/

namespace Tarantula

namespace TaskManager

variable {dir : Directory} {m : TaskManager} {k : Nat}

theorem finished_of_close (hw : Wellformed dir m) {T : Nat} (hk : k ∈ dir.jobs T) {e : Event} {a : Act}
    (ha : Tells dir m e a) (h : .close k ∈ m.timerOps e a) : a = .finished k := by
  have hids : ∀ j, k ∉ m.idsOf j := by
    intro j hmem
    unfold idsOf at hmem
    split at hmem
    · cases hmem
    · next tj hj => exact dir.apart hk _ (hw.ids hj ▸ hmem)
  cases a with
  | finished j =>
    cases List.mem_singleton.mp h
    rfl
  | received mt =>
    have hid : mt.id ∈ dir.txs mt.jobId := ha
    have he : k = mt.id := by simpa [timerOps] using h
    exact absurd (he ▸ hid) (dir.apart hk _)
  | canceled j => exact absurd (by simpa [timerOps] using h) (hids j)
  | stopped j => exact absurd (by simpa [timerOps] using h) (hids j)
  | started j => simp [timerOps] at h
  | askReserve tc => simp [timerOps] at h
  | askFinish tc => simp [timerOps] at h
  | confirmed j => simp [timerOps] at h
  | ended T => simp [timerOps] at h
  | updateTask T => simp [timerOps] at h

theorem queue_of_perm {tr : TaskResource} {jobs : List Ref} (hp : jobs.Perm m.jobs)
    (h : (m.queue tr).length ≤ 1) : { m with jobs := jobs }.queue tr = m.queue tr := by
  have hperm : ({ m with jobs := jobs }.queue tr).Perm (m.queue tr) := hp.filter _
  match hq : m.queue tr, h with
  | [], _ => exact (hq ▸ hperm).eq_nil
  | [r], _ => exact List.perm_singleton.mp (hq ▸ hperm)

end TaskManager

namespace Coordinator

open TaskManager

variable {dir : Directory} {c c' : Coordinator} {k : Nat}

def TimesOut (dir : Directory) (k : Nat) (mt : Meta) : Prop :=
  mt.state = .jobTimeout ∧ mt.jobId = k ∧ mt.taskId = dir.task k

def Ticks (dir : Directory) (c : Coordinator) (k : Nat) : Prop :=
  (∃ t ∈ c.wheel.running, TimesOut dir k t.2) ∨ ∃ q ∈ c.updates.buf, TimesOut dir k q.mt

def Ticking (dir : Directory) (c : Coordinator) : Prop := ∀ k tj, Running dir c.tm k tj → Ticks dir c k

theorem TimesOut.key {mt : Meta} (h : TimesOut dir k mt) : mt.timerKey = k := by
  rw [Meta.timerKey, if_pos h.1, h.2.1]

theorem Ticks.mono (h : Ticks dir c k) (hw : c.wheel.running ⊆ c'.wheel.running)
    (hu : c.updates.buf ⊆ c'.updates.buf) : Ticks dir c' k :=
  h.imp (fun ⟨t, ht, hx⟩ => ⟨t, hw ht, hx⟩) fun ⟨q, hq, hx⟩ => ⟨q, hu hq, hx⟩

/-- An iteration arms the timers of the jobs it starts and keeps those of the jobs that go on. -/
theorem Ticking.follow (h : Sound dir c) (hu : dir.Unique) {b : Event} {m' : TaskManager}
    (hg : b.Genuine dir c.tm)
    (hb : ∀ mt loaded, b = .update mt loaded → mt.state = .jobTimeout ∨ mt.state = .transactionTimeout →
      TimerEvent dir mt) (hw : c.tm.wait b = some m')
    (hold : ∀ k tj tj', Running dir c.tm k tj → Running dir m' k tj' → Ticks dir c k) :
    Ticking dir (c.follow b m') := by
  intro k tj' hrun
  have hrun : Running dir m' k tj' := hrun
  have hw' := (h.tm.waited hg.numbered (wait_cases hw)).wellformed
  have hjob := hw'.mem_jobs hrun.job
  obtain ⟨acts, hlog, hacts, -⟩ := h.logs hg hb hw
  have hops : (c.follow b m').wheel.running =
      (c.wheel.run Meta.timerKey (acts.reverse.flatMap (m'.timerOps b))).running := by
    rw [Coordinator.follow, expire_running, acts_eq hlog]
  have hclose : ∀ acts' : List Act, (∀ a ∈ acts', a ∈ acts) → .finished k ∉ acts' →
      .close k ∉ acts'.flatMap (m'.timerOps b) := by
    intro acts' hsub hfin hx
    obtain ⟨a, ha, hop⟩ := List.mem_flatMap.mp hx
    exact hfin (finished_of_close hw' hjob (hacts a (hsub a ha)) hop ▸ ha)
  by_cases hst : .started k ∈ acts
  · obtain ⟨post, pre, rfl, hpost⟩ := List.eq_append_cons_of_mem hst
    have hfin : .finished k ∉ post := by
      intro hx
      apply hrun.finished
      rw [hlog, List.append_assoc, history_append _ hpost]
      exact List.mem_append_left _ (List.mem_filter.mpr ⟨hx, by simp [Act.concerns]⟩)
    have hsplit : (post ++ .started k :: pre).reverse.flatMap (m'.timerOps b) =
        pre.reverse.flatMap (m'.timerOps b) ++
          .arm (m'.timerMeta k 0 .jobTimeout) :: post.reverse.flatMap (m'.timerOps b) := by
      simp [timerOps]
    have hkey : (m'.timerMeta k 0 .jobTimeout).timerKey = k := by simp [Meta.timerKey, timerMeta]
    have hnot := hclose post.reverse (by simp +contextual) (by simpa using hfin)
    rw [← hkey] at hnot
    obtain ⟨n, hn⟩ := h.wheel.armed_run (pre.reverse.flatMap (m'.timerOps b)) hnot
    refine .inl ⟨(n, m'.timerMeta k 0 .jobTimeout), ?_, rfl, rfl, ?_⟩
    · rw [hops, hsplit]
      exact hn
    · simp only [timerMeta, taskOf, hrun.job, hw'.taskId hrun.job]
  · have hfin : .finished k ∉ acts := by
      intro hx
      apply hrun.finished
      rw [hlog, history_append _ hst]
      exact List.mem_append_left _ (List.mem_filter.mpr ⟨hx, by simp [Act.concerns]⟩)
    obtain ⟨tj, hbefore⟩ := hrun.before h.tm hu hg hw hlog hst
    rcases hold k tj tj' hbefore hrun with ⟨t, ht, hx⟩ | hq
    · refine .inl ⟨t, ?_, hx⟩
      rw [hops]
      refine h.wheel.mem_run ht ?_
      rw [hx.key]
      exact hclose acts.reverse (by simp) (by simpa using hfin)
    · exact .inr hq

/-- There is room for the job that is handed over and for the timeout of a job that fires, and
a task that is loaded unfinished has an unfinished job. -/
def Roomy (c : Coordinator) : CoordinatorEvent → Prop
  | .send _ => c.sent < chanCap
  | .fire i => ∀ t ∈ c.wheel.running[i]?, t.2.state = .jobTimeout → c.updates.buf.length < c.updates.cap
  | .recovery _ loaded | .update loaded => Loadable loaded
  | _ => True

instance (c : Coordinator) : ∀ e, Decidable (Roomy c e)
  | .send _ => inferInstanceAs (Decidable (_ < _))
  | .fire i => inferInstanceAs (Decidable (∀ t ∈ c.wheel.running[i]?, _))
  | .recovery _ loaded => inferInstanceAs (Decidable (Loadable loaded))
  | .update loaded => inferInstanceAs (Decidable (Loadable loaded))
  | .report _ | .saved _ | .task _ | .job => inferInstanceAs (Decidable True)

theorem Ticking.step (h : Sound dir c) (ht : Ticking dir c) (hu : dir.Unique) {e : CoordinatorEvent}
    (hl : Legal dir c e) (hr : Roomy c e) (hs : c.step e = some c') : Ticking dir c' := by
  cases step_cases hs with
  | @fired i n mt hi =>
    intro k tj hrun
    rcases ht k tj hrun with ⟨t, hmem, hx⟩ | ⟨q, hq, hx⟩
    · by_cases he : t = (n, mt)
      · have hroom := hr (n, mt) hi (he ▸ hx.1)
        exact .inr ⟨⟨some n, mt⟩, Chan.offer_room h.opened hroom, by rw [he] at hx; exact hx⟩
      · obtain ⟨hlt, hget⟩ := List.getElem?_eq_some_iff.mp hi
        rcases List.mem_cons.mp ((List.getElem_cons_eraseIdx_perm hlt).mem_iff.mpr hmem) with ht | ht
        · exact absurd (ht.trans hget) he
        · exact .inl ⟨t, ht, hx⟩
    · exact .inr ⟨q, Chan.subset_offer hq, hx⟩
  | @reported mt updates hsend =>
    obtain rfl := Chan.send_sent hsend
    exact fun k tj hrun => (ht k tj hrun).mono (List.Subset.refl _) (List.subset_append_left _ _)
  | saved => exact fun k tj hrun => (ht k tj hrun).mono (List.Subset.refl _) Chan.subset_offer
  | sent => exact fun k tj hrun => ht k tj ⟨hrun.job, hrun.task, hrun.finished⟩
  | dropped => exact fun k tj hrun => ht k tj ⟨hrun.job, hrun.task, hrun.finished⟩
  | @iterated _ b m' n hb hw hn =>
    exact .follow (h.counted n) hu (hl.1 b hb) (fun mt loaded he => absurd he (hn mt loaded)) hw
      fun k tj _ hrun _ => ht k tj hrun
  | @updated q rest loaded m' hq hw =>
    refine .follow (h.dequeued hq) hu (hl.1 _ (by simp [iteration, hq])) (fun mt loaded' he hst => ?_) hw
      fun k tj tj' hrun hrun' => ?_
    · cases he
      exact (h.queued q (hq ▸ List.mem_cons_self ..)).event hst
    · rcases ht k tj hrun with ht | ⟨q', hq', hx⟩
      · exact .inl ht
      · rcases List.mem_cons.mp (hq ▸ hq') with rfl | hq'
        · -- the timeout of a running job ends its task
          obtain ⟨hst, rfl, htask⟩ := hx
          obtain ⟨tr, htr⟩ := Option.isSome_iff_exists.mp (h.tm.wellformed.job _ tj hrun.job).task
          have hwait := wait_in_memory loaded (by simp [hst]) (htask ▸ htr)
          rw [if_neg (hrun.task tr htr)] at hwait
          obtain ⟨tr', htr', hend⟩ := jobTimeout_ends h.tm.wellformed hst hrun.job (hwait.symm.trans hw)
          exact absurd hend (hrun'.task tr' htr')
        · exact .inr ⟨q', hq', hx⟩

/-- The invariant of the runs in which nothing is lost. -/
structure Orderly (dir : Directory) (c : Coordinator) : Prop where
  sound : Sound dir c
  progress : Taskwise (Progress dir) c.tm
  active : Taskwise (Active dir) c.tm
  busy : Busy c.tm
  ticking : Ticking dir c

namespace Orderly

theorem empty (dir : Directory) : Orderly dir empty := by
  refine ⟨.empty dir, ?_, ?_, ?_, ?_⟩
  · intro T tr htr
    simp [Coordinator.empty, TaskManager.empty] at htr
  · intro T tr htr
    simp [Coordinator.empty, TaskManager.empty] at htr
  · intro T tr htr
    simp [Coordinator.empty, TaskManager.empty] at htr
  · intro k tj hrun
    simpa [Coordinator.empty, TaskManager.empty] using hrun.job

/-- The part of the invariant that concerns the maps, over an iteration. -/
theorem wait (h : Orderly dir c) (hu : dir.Unique) {b : Event} {m' : TaskManager} (hg : b.Genuine dir c.tm)
    (hl : ∀ loaded, (∃ k, b = .recovery k loaded) ∨ (∃ mt, b = .update mt loaded) → Loadable loaded)
    (hw : c.tm.wait b = some m') :
    Taskwise (Progress dir) m' ∧ Taskwise (Active dir) m' ∧ Busy m' := by
  have hQ := OnHandled.trivial c.tm b
  exact ⟨h.progress.wait h.sound.tm hg hQ (fun _ _ _ _ hw hne hs h => .step hu hw hne hs h) hw,
    h.active.wait h.sound.tm hg hQ (fun _ _ _ _ _ hne hs h => .step hne hs h) hw, h.busy.wait hg hl hw⟩

theorem sent (h : Orderly dir c) {jobs : List Ref} (hp : jobs.Perm c.tm.jobs) :
    Taskwise (Progress dir) { c.tm with jobs := jobs } ∧
      Taskwise (Active dir) { c.tm with jobs := jobs } := by
  have hq : ∀ (T : Nat) tr, c.tm.trs[T]? = some tr → tr.mt.state ≠ .finished →
      { c.tm with jobs := jobs }.queue tr = c.tm.queue tr :=
    fun T tr htr hne => queue_of_perm hp (h.progress T tr htr hne).once
  refine ⟨fun T tr htr hne => ?_, fun T tr htr hne => ?_⟩
  · exact (h.progress T tr htr hne).same h.sound.tm.wellformed htr (fun _ _ => rfl) (fun _ _ h => h)
      (hq T tr htr hne) fun _ _ => rfl
  · rcases h.active T tr htr hne with hp | hx | hx
    · exact .inl hp
    · exact .inr (.inl ((hq T tr htr hne).symm ▸ hx))
    · exact .inr (.inr hx)

theorem step (h : Orderly dir c) (hu : dir.Unique) {e : CoordinatorEvent} (hl : Legal dir c e)
    (hr : Roomy c e) (hs : c.step e = some c') : Orderly dir c' := by
  have hsound := h.sound.step hl hs
  have hticks := h.ticking.step h.sound hu hl hr hs
  cases step_cases hs with
  | fired => exact ⟨hsound, h.progress, h.active, h.busy, hticks⟩
  | reported => exact ⟨hsound, h.progress, h.active, h.busy, hticks⟩
  | saved => exact ⟨hsound, h.progress, h.active, h.busy, hticks⟩
  | @sent i ref hi hc =>
    obtain ⟨hlt, rfl⟩ := List.getElem?_eq_some_iff.mp hi
    have hperm : ((c.tm.jobs.eraseIdx (c.sent + i)).insertIdx c.sent c.tm.jobs[c.sent + i]).Perm
      c.tm.jobs := by
      refine (List.perm_insertIdx _ _ ?_).trans (List.getElem_cons_eraseIdx_perm hlt)
      rw [List.length_eraseIdx_of_lt hlt]
      omega
    obtain ⟨hp, ha⟩ := h.sent hperm
    exact ⟨hsound, hp, ha, h.busy, hticks⟩
  | dropped hc => exact absurd hr hc
  | @iterated _ b m' n hb hw hn =>
    have hload : ∀ loaded, (∃ k, b = .recovery k loaded) ∨ (∃ mt, b = .update mt loaded) →
        Loadable loaded := by
      rintro loaded (⟨k, rfl⟩ | ⟨mt, rfl⟩)
      · cases e <;> simp_all [iteration, Roomy]
      · exact absurd rfl (hn _ _)
    obtain ⟨hp, ha, hbusy⟩ := h.wait hu (hl.1 b hb) hload hw
    exact ⟨hsound, hp, ha, hbusy, hticks⟩
  | @updated q rest loaded m' hq hw =>
    have hload : ∀ loaded', (∃ k, Event.update q.mt loaded = .recovery k loaded') ∨
        (∃ mt, Event.update q.mt loaded = .update mt loaded') → Loadable loaded' := by
      rintro loaded' (⟨k, hx⟩ | ⟨mt, hx⟩)
      · cases hx
      · cases hx
        exact hr
    obtain ⟨hp, ha, hbusy⟩ := h.wait hu (hl.1 _ (by simp [iteration, hq])) hload hw
    exact ⟨hsound, hp, ha, hbusy, hticks⟩

end Orderly

/-- The current job of the task is on its way to the loop, or it is started and not finished
while its timer is armed or its timeout is queued. The place of the current job in `pending`
is kept as long as no job of the task is canceled. -/
def Attended (dir : Directory) (c : Coordinator) (T : Nat) (tr : TaskResource) : Prop :=
  (∃ ref ∈ c.tm.jobs, ref ∈ tr.refs ∧ (tr.canceled = false → tr.pending[tr.jobIndex]? = some ref)) ∨
  ∃ k tj, dir.task k = T ∧ c.tm.tjs[k]? = some tj ∧ .finished k ∉ history k c.tm.log ∧
    (tr.canceled = false → ∃ ref, tr.pending[tr.jobIndex]? = some ref ∧ c.tm.jobId ref = k) ∧ Ticks dir c k

theorem Orderly.attended (h : Orderly dir c) {T : Nat} {tr : TaskResource} (htr : c.tm.trs[T]? = some tr)
    (hne : tr.mt.state ≠ .finished) : Attended dir c T tr := by
  have hp := h.progress T tr htr hne
  rcases h.active T tr htr hne with hx | hx | ⟨k, rfl, hs, hf⟩
  · exact absurd hx (h.busy T tr htr)
  · obtain ⟨ref, href⟩ := List.exists_mem_of_ne_nil _ hx
    obtain ⟨hmem, hrefs⟩ := List.mem_filter.mp href
    exact .inl ⟨ref, hmem, by simpa using hrefs, fun hc => hp.waiting hc ref href⟩
  · obtain ⟨tj, hj⟩ := Option.isSome_iff_exists.mp hs
    have hfin : .finished k ∉ history k c.tm.log := by
      rw [finished_mem_history]
      simpa [marks] using hf
    have hrun : Running dir c.tm k tj := by
      refine ⟨hj, fun tr' htr' => ?_, hfin⟩
      obtain rfl := Option.some.inj (htr.symm.trans htr')
      exact hne
    exact .inr ⟨k, tj, rfl, hj, hfin, fun hc => hp.current hc k rfl hs hf, h.ticking k tj hrun⟩

/-- In every run without a lost job or job timeout, whose loaded tasks have something to do,
each task that is not finished has its current job on its way to the loop, or started with
its job timer armed or its timeout queued. -/
theorem no_orphaned_task (hu : dir.Unique)
    (h : Reaches step (fun c e => Legal dir c e ∧ Roomy c e) empty c) :
    ∀ (T : Nat) tr, c.tm.trs[T]? = some tr → tr.mt.state ≠ .finished → Attended dir c T tr := by
  have horderly := Reaches.invariant (I := Orderly dir) h (.empty dir)
    fun s e t hs he hstep => hs.step hu he.1 he.2 hstep
  exact fun T tr htr hne => horderly.attended htr hne

/-- Job 2 is started when the timer of its job fires: the timeout is queued. -/
theorem no_orphaned_task_sample :
    ∃ c tr, Reaches step (fun c e => Legal sampleDirectory c e ∧ Roomy c e) empty c ∧
      c.tm.trs[1]? = some tr ∧ tr.mt.state ≠ .finished ∧ c.tm.jobs = [] ∧
      (∀ t ∈ c.wheel.running, t.2.state ≠ .jobTimeout) ∧ ∃ q ∈ c.updates.buf, q.mt.state = .jobTimeout := by
  obtain ⟨c, hc, ⟨tr, htr, hne⟩, hjobs, hrun⟩ := exists_reaches_of_checkedRun step
    (fun c e => Legal sampleDirectory c e ∧ Roomy c e)
    (fun c => (∃ tr ∈ c.tm.trs[1]?, tr.mt.state ≠ .finished) ∧ c.tm.jobs = [] ∧
      ∀ t ∈ c.wheel.running, t.2.state ≠ .jobTimeout) empty
    [.task sampleTask, .send 0, .job, .fire 0] (by decide)
  refine ⟨c, tr, hc, htr, hne, hjobs, hrun, ?_⟩
  rcases no_orphaned_task sampleDirectory_unique hc 1 tr htr hne with ⟨ref, href, -⟩ | ⟨k, tj, -, -, -, -, hx⟩
  · simp [hjobs] at href
  · rcases hx with ⟨t, ht, hx⟩ | ⟨q, hq, hx⟩
    · exact absurd hx.1 (hrun t ht)
    · exact ⟨q, hq, hx.1⟩

theorem not_attended {T : Nat} {tr : TaskResource} (hq : c.tm.queue tr = [])
    (hw : ∀ t ∈ c.wheel.running, t.2.state = .jobTimeout → t.2.taskId ≠ T)
    (hu : ∀ q ∈ c.updates.buf, q.mt.state = .jobTimeout → q.mt.taskId ≠ T) : ¬ Attended dir c T tr := by
  rintro (⟨ref, hmem, href, -⟩ | ⟨k, tj, rfl, -, -, -, ⟨t, ht, hx⟩ | ⟨q, hmem, hx⟩⟩)
  · have hx : ref ∈ c.tm.queue tr := List.mem_filter.mpr ⟨hmem, by simpa using href⟩
    simp [hq] at hx
  · exact hw t ht hx.1 hx.2.2
  · exact hu q hmem hx.1 hx.2.2

def smallTask (n : Nat) : Task :=
  { mt := { (default : Meta) with id := 3 * n + 1 }
    validator := none
    jobs := [⟨{ (default : Meta) with taskId := 3 * n + 1, id := 3 * n + 2 },
      [⟨{ (default : Meta) with jobId := 3 * n + 2, id := 3 * n + 3 }⟩]⟩] }

def smallDirectory : Directory where
  task j := j - 1
  jobs t := if t % 3 = 1 then [t + 1] else []
  txs j := if j % 3 = 2 then [j + 1] else []
  task_of_mem := by
    intro t j h
    split at h
    · simp at h
      omega
    · simp at h
  apart := by
    intro t j hj k h
    split at hj <;> split at h <;> simp at h hj
    omega
  nodup := by
    intro j
    split <;> simp

/-- Eleven tasks come in before the loop receives a job: the eleventh job is dropped. And ten
reports are queued when the timer of a job fires: its timeout is dropped. -/
theorem orphaned_tasks :
    (∃ c tr, Reaches step (Legal smallDirectory) empty c ∧ c.tm.trs[31]? = some tr ∧
      tr.mt.state ≠ .finished ∧ ¬ Attended smallDirectory c 31 tr) ∧
    ∃ c tr, Reaches step (Legal sampleDirectory) empty c ∧ c.tm.trs[1]? = some tr ∧
      tr.mt.state ≠ .finished ∧ ¬ Attended sampleDirectory c 1 tr := by
  constructor
  · obtain ⟨c, hc, ⟨tr, htr, hne, hq⟩, hw, hu⟩ := exists_reaches_of_checkedRun step (Legal smallDirectory)
      (fun c => (∃ tr ∈ c.tm.trs[31]?, tr.mt.state ≠ .finished ∧ c.tm.queue tr = []) ∧
        (∀ t ∈ c.wheel.running, t.2.state = .jobTimeout → t.2.taskId ≠ 31) ∧
        ∀ q ∈ c.updates.buf, q.mt.state = .jobTimeout → q.mt.taskId ≠ 31) empty
      ((List.range 11).map (fun n => .task (smallTask n)) ++ List.replicate 11 (.send 0)) (by decide +kernel)
    exact ⟨c, tr, hc, htr, hne, not_attended hq hw hu⟩
  · obtain ⟨c, hc, ⟨tr, htr, hne, hq⟩, hw, hu⟩ := exists_reaches_of_checkedRun step (Legal sampleDirectory)
      (fun c => (∃ tr ∈ c.tm.trs[1]?, tr.mt.state ≠ .finished ∧ c.tm.queue tr = []) ∧
        (∀ t ∈ c.wheel.running, t.2.state = .jobTimeout → t.2.taskId ≠ 1) ∧
        ∀ q ∈ c.updates.buf, q.mt.state = .jobTimeout → q.mt.taskId ≠ 1) empty
      ([.task sampleTask, .send 0, .job] ++ List.replicate 10
        (.report (sampleMeta 2 3 .confirmed)) ++ [.fire 0])
      (by decide +kernel)
    exact ⟨c, tr, hc, htr, hne, not_attended hq hw hu⟩

end Coordinator

end Tarantula
