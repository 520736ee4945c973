import Tarantula.JobChain

/-! The barriers of a task along a steady run: what every reached state has of its jobs, its
place in their chain and the queue. -/

namespace Tarantula.TaskManager

/-- Where the task `T` stands: it has not come in, its next job is queued or runs, or it has
ended. -/
inductive Place (dir : Directory) (m : TaskManager) (T : Nat) : Prop
  | absent (htr : m.trs[T]? = none) (hc : Chain dir T m.log 0 0) (he : m.log.count (.ended T) = 0)
  | queued {tr ref} (htr : m.trs[T]? = some tr) (hne : tr.mt.state ≠ .finished) (hp : tr.pending = tr.refs)
      (hr : tr.refs[tr.jobIndex]? = some ref) (hq : m.queue tr = [ref])
      (hc : Chain dir T m.log tr.jobIndex tr.jobIndex) (he : m.log.count (.ended T) = 0)
  | running {tr k} (htr : m.trs[T]? = some tr) (hne : tr.mt.state ≠ .finished) (hp : tr.pending = tr.refs)
      (hk : (dir.jobs T)[tr.jobIndex]? = some k) (hq : m.queue tr = [])
      (hc : Chain dir T m.log tr.jobIndex (tr.jobIndex + 1)) (he : m.log.count (.ended T) = 0)
  | ended (htr : ∀ tr, m.trs[T]? = some tr → tr.mt.state = .finished)
      (hc : Chain dir T m.log (dir.jobs T).length (dir.jobs T).length) (he : m.log.count (.ended T) = 1)

structure Barriers (dir : Directory) (m : TaskManager) : Prop where
  sound : Sound dir m
  untimely : Untimely dir m
  housed : Housed m
  job : ∀ k, JobTale dir m k
  task : ∀ T, Place dir m T
  turn : ∀ T, InTurn dir T m.log

variable {dir : Directory} {m m' : TaskManager} {T : Nat}

theorem house (hw : Wellformed dir m) {tr : TaskResource} (htr : m.trs[T]? = some tr)
    (hne : tr.mt.state ≠ .finished) {r : Ref} (hr : r ∈ tr.refs) :
    ∃ tr, m.trs[(m.heap r).mt.taskId]? = some tr ∧ tr.mt.state ≠ .finished ∧ r ∈ tr.refs :=
  ⟨tr, by rw [hw.ref_task htr hr, htr], hne, hr⟩

namespace Place

theorem chain (h : Place dir m T) : ∃ n s, s ≤ n + 1 ∧ Chain dir T m.log n s := by
  cases h with
  | absent _ hc => exact ⟨_, _, by omega, hc⟩
  | queued _ _ _ _ _ hc => exact ⟨_, _, by omega, hc⟩
  | running _ _ _ _ _ hc => exact ⟨_, _, by omega, hc⟩
  | ended _ hc => exact ⟨_, _, by omega, hc⟩

theorem same (h : Place dir m T) (htr : m'.trs[T]? = m.trs[T]?)
    (hq : ∀ tr, m.trs[T]? = some tr → m'.queue tr = m.queue tr) {acts : List Act}
    (hl : m'.log = acts ++ m.log) (he : .ended T ∉ acts) (hs : ∀ k ∈ dir.jobs T, .started k ∉ acts)
    (hf : ∀ k ∈ dir.jobs T, .finished k ∉ acts)
    (hu : ∀ k ∈ dir.jobs T, Unheard k m.log → Unheard k acts) : Place dir m' T := by
  have hchain : ∀ {n s}, Chain dir T m.log n s → Chain dir T m'.log n s := fun hc =>
    hl ▸ hc.same hs hf hu
  have hcount : m'.log.count (.ended T) = m.log.count (.ended T) := by
    rw [hl, List.count_append, List.count_eq_zero_of_not_mem he, Nat.zero_add]
  cases h with
  | absent hn hc h₀ => exact .absent (htr.trans hn) (hchain hc) (hcount.trans h₀)
  | queued ht hne hp hr hq' hc h₀ =>
    exact .queued (htr.trans ht) hne hp hr ((hq _ ht).trans hq') (hchain hc) (hcount.trans h₀)
  | running ht hne hp hk hq' hc h₀ =>
    exact .running (htr.trans ht) hne hp hk ((hq _ ht).trans hq') (hchain hc) (hcount.trans h₀)
  | ended ht hc h₁ => exact .ended (fun tr h => ht tr (htr ▸ h)) (hchain hc) (hcount.trans h₁)

theorem current (h : Place dir m T) {tr : TaskResource} (htr : m.trs[T]? = some tr)
    (hne : tr.mt.state ≠ .finished) {k : Nat} (hk : k ∈ dir.jobs T) (hst : .started k ∈ m.log)
    (hf : .finished k ∉ m.log) : tr.pending = tr.refs ∧ (dir.jobs T)[tr.jobIndex]? = some k ∧
      m.queue tr = [] ∧ Chain dir T m.log tr.jobIndex (tr.jobIndex + 1) ∧ m.log.count (.ended T) = 0 := by
  cases h with
  | absent hn => simp [hn] at htr
  | queued ht _ _ _ _ hc =>
    have hx := (hc.current (by omega) hk hst hf).1
    omega
  | running ht _ hp _ hq hc he =>
    obtain rfl := Option.some.inj (htr.symm.trans ht)
    exact ⟨hp, (hc.current (by omega) hk hst hf).2, hq, hc, he⟩
  | ended ht => exact absurd (ht tr htr) hne

end Place

namespace Barriers

theorem empty (dir : Directory) : Barriers dir TaskManager.empty := by
  refine ⟨.empty dir, fun k _ id _ => by simp [TaskManager.empty],
    fun r hr => by simp [TaskManager.empty] at hr,
    fun k => .unheard (by simp [TaskManager.empty]) (by simp [TaskManager.empty, Unheard]),
    fun T => .absent (by simp [TaskManager.empty]) ⟨?_, by simp, ?_, ?_⟩ (by simp [TaskManager.empty]),
    fun T n a b hn => by simp [TaskManager.empty] at hn⟩
  · simp [TaskManager.empty, starts]
  · simp [TaskManager.empty]
  · simp [TaskManager.empty, Unheard]

theorem started (h : Barriers dir m) : ∀ k tj, m.tjs[k]? = some tj → .started k ∈ m.log :=
  fun k _ hj => (h.job k).started hj

theorem of_ended (h : Barriers dir m) (he : .ended T ∈ m.log) :
    (∀ tr, m.trs[T]? = some tr → tr.mt.state = .finished) ∧
      Chain dir T m.log (dir.jobs T).length (dir.jobs T).length := by
  have hpos := List.count_pos_iff.mpr he
  cases h.task T with
  | absent _ _ h₀ => omega
  | queued _ _ _ _ _ _ h₀ => omega
  | running _ _ _ _ _ _ h₀ => omega
  | ended htr hc => exact ⟨htr, hc⟩

theorem enter (h : Barriers dir m) {t : Task} {tr : TaskResource} {ref : Ref}
    (hne : t.mt.state ≠ .finished) (hk : m.trs[t.mt.id]? = none) (he : .ended t.mt.id ∉ m.log)
    (hn : NewTask m t tr) (hf : tr.Fresh) (hp : tr.pending = tr.refs) (hr : tr.pending[0]? = some ref)
    (hm : m' = ((m.introduce t.mt.id t tr).readyJob tr ref).schedule tr ref) (hs' : Sound dir m')
    (hu' : Untimely dir m') : Barriers dir m' := by
  have hlog : m'.log = [.updateTask tr.mt.id] ++ m.log := by rw [hm]; rfl
  have hjobs : m'.jobs = m.jobs ++ [ref] := by rw [hm]; rfl
  have htrs : ∀ T, m'.trs[T]? = if t.mt.id = T then some tr else m.trs[T]? := by
    rw [hm]
    exact fun T => ExtMap.getElem?_insert ..
  have hnew : m'.trs[t.mt.id]? = some tr := by rw [htrs, if_pos rfl]
  have hstate : tr.mt.state ≠ .finished := by rw [hn.mt]; exact hne
  have hmem : ref ∈ tr.refs := hp ▸ List.mem_of_getElem? hr
  have hw' := hs'.wellformed
  refine ⟨hs', hu', fun r hr => ?_, fun k => ?_, fun T => ?_, fun T => ?_⟩
  · rw [hjobs, List.mem_append, List.mem_singleton] at hr
    rcases hr with hr | rfl
    · obtain ⟨tr', htr', hne', hr'⟩ := h.housed r hr
      have hT : t.mt.id ≠ (m.heap r).mt.taskId := fun hT => by simp [← hT, hk] at htr'
      have hold : m'.trs[(m.heap r).mt.taskId]? = some tr' := by rw [htrs, if_neg hT, htr']
      exact house hw' hold hne' hr'
    · exact house hw' hnew hstate hmem
  · exact (h.job k).same (by rw [hm]; rfl) hlog (by simp [Unheard, Act.job])
  · by_cases hT : t.mt.id = T
    · subst hT
      have hq : m'.queue tr = [ref] := by
        have hnil : m.jobs.filter (· ∈ tr.refs) = [] := by
          rw [List.filter_eq_nil_iff]
          simpa using Reserved.not_queued h.sound.wellformed hn
        rw [queue, hjobs, List.filter_append, hnil]
        simp [hmem]
      cases h.task t.mt.id with
      | absent _ hc h₀ =>
        refine .queued hnew hstate hp (by rw [hf.index, ← hp, hr]) hq ?_ ?_
        · rw [hf.index, hlog]
          exact hc.same (by simp) (by simp) fun _ _ _ => by simp [Unheard, Act.job]
        · rw [hlog, List.count_append, h₀]
          simp
      | queued htr => simp [hk] at htr
      | running htr => simp [hk] at htr
      | ended _ _ h₁ => exact absurd (List.count_pos_iff.mp (by omega)) he
    · refine (h.task T).same (by rw [htrs, if_neg hT]) (fun tr' htr' => ?_) hlog (by simp) (by simp)
        (by simp) fun _ _ _ => by simp [Unheard, Act.job]
      have hold : m'.trs[T]? = some tr' := by rw [htrs, if_neg hT, htr']
      have hnot : ref ∉ tr'.refs := fun hr' => hT (Reserved.refs_apart hw' hnew hold hmem hr')
      rw [queue, hjobs, List.filter_append]
      simp [queue, hnot]
  · rw [hlog]
    exact (h.turn T).quiet (by simp) (by simp)

theorem next_job (h : Barriers dir m) {ref : Ref} (hr : ref ∈ m.jobs) :
    ∃ tr, m.trs[(m.heap ref).mt.taskId]? = some tr ∧ tr.mt.state ≠ .finished ∧ ref ∈ tr.refs ∧
      tr.pending = tr.refs ∧ m.queue tr = [ref] ∧
      (dir.jobs (m.heap ref).mt.taskId)[tr.jobIndex]? = some (m.heap ref).mt.id ∧
      Chain dir (m.heap ref).mt.taskId m.log tr.jobIndex tr.jobIndex ∧
      m.log.count (.ended (m.heap ref).mt.taskId) = 0 := by
  obtain ⟨tr, htr, hne, hmem⟩ := h.housed ref hr
  have hin : ref ∈ m.queue tr := List.mem_filter.mpr ⟨hr, by simpa using hmem⟩
  cases h.task (m.heap ref).mt.taskId with
  | absent hn => simp [hn] at htr
  | queued ht _ hp href hq hc h₀ =>
    obtain rfl := Option.some.inj (htr.symm.trans ht)
    obtain rfl : ref = _ := by simpa [hq] using hin
    refine ⟨tr, htr, hne, hmem, hp, hq, ?_, hc, h₀⟩
    have hids := (h.sound.wellformed.task _ tr htr).ids
    rw [← hids, List.getElem?_map, show (tr.validator.toList ++ tr.jobs)[tr.jobIndex]? = _ from href]
    rfl
  | running ht _ _ _ hq =>
    obtain rfl := Option.some.inj (htr.symm.trans ht)
    simp [hq] at hin
  | ended ht => exact absurd (ht tr htr) hne

theorem start_says {ref : Ref} (hnum : (m.heap ref).Numbered dir) (jobs : List Ref) :
    ∃ acts, ({ m with jobs := jobs }.start ref).log = acts ++ m.log ∧ .started (m.heap ref).mt.id ∈ acts ∧
      (∀ a ∈ acts, a.job = some (m.heap ref).mt.id) ∧ (∀ k, .finished k ∉ acts) ∧ (∀ T, .ended T ∉ acts) ∧
      starts dir (m.heap ref).mt.taskId acts = [(m.heap ref).mt.id] := by
  have hasks : ∀ tc ∈ (Wellformed.startedJob (m.heap ref)).transactions, tc.mt.jobId = (m.heap ref).mt.id :=
    (Wellformed.startedJob_numbered hnum).jobId
  refine ⟨((Wellformed.startedJob (m.heap ref)).transactions.map fun tc => Act.askReserve tc.mt).reverse ++
    [.started (m.heap ref).mt.id], ?_, by simp, fun a ha => ?_, by simp, by simp, ?_⟩
  · rw [Wellformed.start_log]
    simp
  · simp only [List.mem_append, List.mem_reverse, List.mem_map, List.mem_singleton] at ha
    rcases ha with ⟨tc, htc, rfl⟩ | rfl
    · exact congrArg some (hasks tc htc)
    · rfl
  · have hnil : starts dir (m.heap ref).mt.taskId ((Wellformed.startedJob (m.heap ref)).transactions.map
        fun tc => Act.askReserve tc.mt).reverse = [] := starts_nil (by simp)
    rw [starts_append, hnil]
    simp [starts, hnum.mem]

theorem start (h : Barriers dir m) (hu : dir.Unique) {i : Nat} {ref : Ref} (hi : m.jobs[i]? = some ref)
    (hm : m' = { m with jobs := m.jobs.eraseIdx i }.start ref) (hs' : Sound dir m')
    (hu' : Untimely dir m') : Barriers dir m' := by
  have hin := List.mem_of_getElem? hi
  have hw := h.sound.wellformed
  have hw' := hs'.wellformed
  obtain ⟨tr, htr, hne, hmem, hp, hq, hk, hc, h₀⟩ := h.next_job hin
  have hnum := hw.numbered ref (hw.queued ref hin)
  have hunheard : Unheard (m.heap ref).mt.id m.log := by
    refine hc.waiting _ (List.mem_iff_getElem?.mpr ⟨0, ?_⟩)
    rw [List.getElem?_drop, Nat.add_zero, hk]
  have htrs : m'.trs = m.trs := by rw [hm]; rfl
  have hjobs : m'.jobs = m.jobs.eraseIdx i := by rw [hm]; rfl
  have htjs : ∀ k : Nat, m'.tjs[k]? = if (m.heap ref).mt.id = k then
      some (Wellformed.startedResource ref (m.heap ref)) else m.tjs[k]? := by
    intro k
    rw [hm, Wellformed.start_tjs, ExtMap.getElem?_insert]
  obtain ⟨acts, hlog, hstarted, hacts, hfin, hend, hstarts⟩ := start_says hnum (m.jobs.eraseIdx i)
  rw [← hm] at hlog
  have hjob : (m.heap ref).mt.id ∈ dir.jobs (m.heap ref).mt.taskId := List.mem_of_getElem? hk
  have hchain : Chain dir (m.heap ref).mt.taskId m'.log tr.jobIndex (tr.jobIndex + 1) := by
    rw [hlog]
    exact hc.start (hu.jobs _) hk hstarts hacts (hfin _)
  refine ⟨hs', hu', fun r hr => ?_, fun k => ?_, fun T => ?_, fun T => ?_⟩
  · obtain ⟨tr', htr', hne', hr'⟩ := h.housed r (List.mem_of_mem_eraseIdx (hjobs ▸ hr))
    rw [← htrs] at htr'
    exact house hw' htr' hne' hr'
  · by_cases he : (m.heap ref).mt.id = k
    · subst he
      refine .once (by rw [htjs, if_pos rfl]) ?_
      rw [hm]
      exact Once.start dir hunheard
    · refine (h.job k).same (by rw [htjs, if_neg he]) hlog fun a ha hx => he ?_
      exact Option.some.inj ((hacts a ha).symm.trans hx)
  · by_cases hT : T = (m.heap ref).mt.taskId
    · subst hT
      refine .running (htrs ▸ htr) hne hp hk ?_ hchain ?_
      · rw [queue, hjobs, List.filter_eq_nil_iff]
        have hone : (m.queue tr).length ≤ 1 := by rw [hq]; exact Nat.le_refl 1
        simpa using not_mem_of_eraseIdx hone hi (by simpa using hmem)
      · rw [hlog, List.count_append, h₀, List.count_eq_zero_of_not_mem (hend _)]
    · have hother : ∀ k ∈ dir.jobs T, (m.heap ref).mt.id ≠ k := by
        rintro k hk' rfl
        exact hT ((dir.task_of_mem hk').symm.trans (dir.task_of_mem hjob))
      refine (h.task T).same (by rw [htrs]) (fun tr' htr' => ?_) hlog (hend T) (fun k hk' hx => ?_)
        (fun k _ => hfin k) fun k hk' _ a ha hx => ?_
      · have hnot : ref ∉ tr'.refs := fun hr' => hT (Reserved.refs_apart hw htr' htr hr' hmem)
        rw [queue, hjobs]
        exact filter_eraseIdx hi (by simpa using hnot)
      · exact hother k hk' (Option.some.inj (hacts _ hx).symm)
      · exact hother k hk' (Option.some.inj ((hacts a ha).symm.trans hx))
  · rw [hlog]
    refine (h.turn T).append fun a ha b hab => ?_
    cases hab with
    | @reserve tc n j hn hj =>
      rw [show tc.jobId = (m.heap ref).mt.id from Option.some.inj (hacts _ ha)] at hn
      obtain rfl : (m.heap ref).mt.taskId = T :=
        (dir.task_of_mem hjob).symm.trans (dir.task_of_mem (List.mem_of_getElem? hn))
      have hdone := hchain.turn (by omega) hj hn (by rw [hlog]; exact List.mem_append_left _ hstarted)
      rw [hlog, List.mem_append] at hdone
      exact hdone.resolve_left (hfin j)
    | ended => exact absurd ha (hend _)

theorem clear (h : Barriers dir m) {T₀ : Nat} (he : .ended T₀ ∈ m.log)
    (hs' : Sound dir (m.clearResource T₀)) (hu' : Untimely dir (m.clearResource T₀)) :
    Barriers dir (m.clearResource T₀) := by
  obtain ⟨hfin, hc⟩ := h.of_ended he
  cases htr : m.trs[T₀]? with
  | none =>
    rw [clearResource, htr]
    exact h
  | some tr₀ =>
    have hw := h.sound.wellformed
    have hw' := hs'.wellformed
    have hlog : (m.clearResource T₀).log = [] ++ m.log := by simp only [clearResource, htr]; rfl
    have hjobs : (m.clearResource T₀).jobs = m.jobs := by simp only [clearResource, htr]
    have htrs : ∀ T, (m.clearResource T₀).trs[T]? = if T₀ = T then none else m.trs[T]? := by
      intro T
      simp only [clearResource, htr, ExtMap.getElem?_erase]
    have htjs : ∀ k : Nat, (m.clearResource T₀).tjs[k]? = if k ∈ dir.jobs T₀ then none else m.tjs[k]? := by
      intro k
      simp only [clearResource, htr, ExtMap.getElem?_eraseEach, (hw.task T₀ tr₀ htr).ids]
    refine ⟨hs', hu', fun r hr => ?_, fun k => ?_, fun T => ?_, fun T => ?_⟩
    · obtain ⟨tr, htr', hne, hr'⟩ := h.housed r (hjobs ▸ hr)
      have hT : T₀ ≠ (m.heap r).mt.taskId := by
        intro hT
        rw [← hT, htr] at htr'
        obtain rfl := Option.some.inj htr'
        exact hne (hfin _ htr)
      have hold : (m.clearResource T₀).trs[(m.heap r).mt.taskId]? = some tr := by
        rw [htrs, if_neg hT, htr']
      exact house hw' hold hne hr'
    · by_cases hk : k ∈ dir.jobs T₀
      · have hdone : .finished k ∈ m.log := hc.finished k (by rw [List.take_length]; exact hk)
        have hst : .started k ∈ m.log := by
          by_contra hnot
          exact ((h.job k).unheard_of_not_started hnot).not_finished hdone
        refine .closed (by rw [htjs, if_pos hk]) ?_ ?_ ?_
        · rw [hlog]
          exact hst
        · rw [hlog, dir.task_of_mem hk]
          exact he
        · rw [hlog]
          exact (h.job k).exact_
      · exact (h.job k).same (by rw [htjs, if_neg hk]) hlog (by simp [Unheard])
    · by_cases hT : T₀ = T
      · subst hT
        refine .ended (fun tr hx => by simp [htrs] at hx) (hlog ▸ hc) ?_
        cases h.task T₀ with
        | ended _ _ h₁ => rw [hlog]; exact h₁
        | absent _ _ h₀ => exact absurd he (List.count_eq_zero.mp h₀)
        | queued _ _ _ _ _ _ h₀ => exact absurd he (List.count_eq_zero.mp h₀)
        | running _ _ _ _ _ _ h₀ => exact absurd he (List.count_eq_zero.mp h₀)
      · exact (h.task T).same (by rw [htrs, if_neg hT]) (fun tr _ => by rw [queue, hjobs, queue]) hlog
          (by simp) (by simp) (by simp) (by simp [Unheard])
    · rw [hlog]
      exact h.turn T

/-- The job whose last `FINISHED` has arrived is the running one of its task. -/
theorem last_job (h : Barriers dir m) {mt : Meta} {tj : JobResource} (hf : LastFinished m mt tj)
    {tr : TaskResource} (htr : m.trs[dir.task mt.jobId]? = some tr) (hne : tr.mt.state ≠ .finished) :
    tr.pending = tr.refs ∧ (dir.jobs (dir.task mt.jobId))[tr.jobIndex]? = some mt.jobId ∧
      m.queue tr = [] ∧ Chain dir (dir.task mt.jobId) m.log tr.jobIndex (tr.jobIndex + 1) ∧
      m.log.count (.ended (dir.task mt.jobId)) = 0 := by
  have ho := (h.job mt.jobId).get hf.job
  have hent := h.sound.wellformed.job _ tj hf.job
  obtain ⟨t, ht, hz⟩ := hf.first
  have hnot : .finished mt.jobId ∉ m.log := by
    intro hx
    have hin : .finished mt.jobId ∈ history mt.jobId m.log := by
      rw [ho.whole]
      exact List.mem_filter.mpr ⟨hx, by simp [Act.concerns]⟩
    have hfirst := (h.sound.counting _ tj hf.job).first_finished ht hz
    simp [(ho.phase.completed.mp hin).2 _ ((hent.mem mt.id).mp (by simp [ht]))] at hfirst
  exact (h.task _).current htr hne (h.sound.wellformed.mem_jobs hf.job) ho.started hnot

section Report

variable {mt : Meta} {acts : List Act} (h : Barriers dir m) (hh : Handled m mt m') (ht : Told dir m mt m')

include h hh ht

theorem unmoved (htr : m'.trs[T]? = m.trs[T]?) (hq : ∀ tr, m.trs[T]? = some tr → m'.queue tr = m.queue tr)
    (hl : m'.log = acts ++ m.log) (he : .ended T ∉ acts) (hf : ∀ k ∈ dir.jobs T, .finished k ∉ acts) :
    Place dir m' T := by
  refine (h.task T).same htr hq hl he (fun k _ => ?_) hf fun k _ hk a ha hx => ?_
  · obtain ⟨acts', hl', hst⟩ := (Frame.handled hh).log
    obtain rfl := List.append_cancel_right (hl.symm.trans hl')
    exact hst k
  · -- what the report adds is about jobs that have been started
    obtain ⟨acts', hl', hab⟩ := ht.about
    obtain rfl := List.append_cancel_right (hl.symm.trans hl')
    rcases hab a ha k hx with ⟨-, hj⟩ | ⟨-, hst⟩
    · obtain ⟨tj, hj⟩ := Option.isSome_iff_exists.mp hj
      exact hk.not_started (h.started k tj hj)
    · exact hk.not_started hst

variable (hjobs : ∀ k, JobTale dir m' k) (hs' : Sound dir m') (hu' : Untimely dir m')

include hjobs hs' hu'

theorem calm (htrs : m'.trs = m.trs) (hq : m'.jobs = m.jobs) (hl : m'.log = acts ++ m.log)
    (ha : ∀ a ∈ acts, (∃ tc, (a = .askReserve tc ∨ a = .askFinish tc) ∧ .started tc.jobId ∈ m.log) ∨
      (m.tjs[mt.jobId]?).isSome ∧ (a = .received mt ∨ a = .confirmed mt.jobId)) : Barriers dir m' := by
  have hquiet : ∀ a ∈ acts, (∀ k, a ≠ .finished k) ∧ ∀ T, a ≠ .ended T := by
    intro a hmem
    rcases ha a hmem with ⟨tc, rfl | rfl, -⟩ | ⟨-, rfl | rfl⟩ <;> simp
  refine ⟨hs', hu', fun r hr' => ?_, hjobs, fun T => ?_, fun T => ?_⟩
  · obtain ⟨tr, htr, hne, hr'⟩ := h.housed r (hq ▸ hr')
    rw [← htrs] at htr
    exact house hs'.wellformed htr hne hr'
  · exact h.unmoved hh ht (by rw [htrs]) (fun tr _ => by rw [queue, hq, queue]) hl
      (fun hx => (hquiet _ hx).2 T rfl) fun k _ hx => (hquiet _ hx).1 k rfl
  · rw [hl]
    refine (h.turn T).append fun a hmem b hab => ?_
    cases hab with
    | @reserve tc i j hi hj =>
      have hst : .started tc.jobId ∈ m.log := by
        rcases ha _ hmem with ⟨tc', he | he, hst⟩ | ⟨-, he | he⟩ <;> cases he
        exact hst
      obtain ⟨n, s, hle, hc⟩ := (h.task T).chain
      exact hc.turn hle hj hi hst
    | ended => exact absurd rfl ((hquiet _ hmem).2 T)

variable {tj : JobResource} {tr : TaskResource} (hu : dir.Unique) (hf : LastFinished m mt tj)
  (htr : m.trs[dir.task mt.jobId]? = some tr) (hne : tr.mt.state ≠ .finished)

include hu hf htr hne

theorem next {ref : Ref} (hp : tr.pending[tr.jobIndex + 1]? = some ref)
    (htrs : m'.trs = m.trs.insert (dir.task mt.jobId) { tr with jobIndex := tr.jobIndex + 1 })
    (hq : m'.jobs = m.jobs ++ [ref])
    (hl : m'.log = [.updateTask tr.mt.id, .finished mt.jobId, .received mt] ++ m.log) :
    Barriers dir m' := by
  obtain ⟨hpend, hk, hnil, hc, h₀⟩ := h.last_job hf htr hne
  have hmem : ref ∈ tr.refs := hpend ▸ List.mem_of_getElem? hp
  have hget : ∀ T, m'.trs[T]? = if dir.task mt.jobId = T then
      some { tr with jobIndex := tr.jobIndex + 1 } else m.trs[T]? := by
    rw [htrs]
    exact fun T => ExtMap.getElem?_insert ..
  have hnew : m'.trs[dir.task mt.jobId]? = some { tr with jobIndex := tr.jobIndex + 1 } := by
    rw [hget, if_pos rfl]
  refine ⟨hs', hu', fun r hr' => ?_, hjobs, fun T => ?_, fun T => ?_⟩
  · rw [hq, List.mem_append, List.mem_singleton] at hr'
    rcases hr' with hr' | rfl
    · obtain ⟨tr₁, htr', hne₁, hr'⟩ := h.housed r hr'
      by_cases hT : dir.task mt.jobId = (m.heap r).mt.taskId
      · rw [← hT, htr] at htr'
        obtain rfl := Option.some.inj htr'
        exact house hs'.wellformed hnew hne₁ hr'
      · have hold : m'.trs[(m.heap r).mt.taskId]? = some tr₁ := by rw [hget, if_neg hT, htr']
        exact house hs'.wellformed hold hne₁ hr'
    · exact house hs'.wellformed hnew hne hmem
  · by_cases hT : dir.task mt.jobId = T
    · subst hT
      refine .queued hnew hne hpend (hpend ▸ hp) ?_ ?_ ?_
      · have hx : m'.queue tr = [ref] := by
          rw [queue, hq, List.filter_append, ← queue, hnil]
          simp [hmem]
        exact hx
      · rw [hl]
        exact hc.finish (hu.jobs _) hk (by simp) (by simp) (by simp [Act.job])
      · rw [hl, List.count_append, h₀]
        simp
    · refine h.unmoved hh ht (by rw [hget, if_neg hT]) (fun tr₁ htr' => ?_) hl (by simp) fun k hk' hx => ?_
      · have hnot : ref ∉ tr₁.refs := fun hr' => hT (Reserved.refs_apart h.sound.wellformed htr htr' hmem hr')
        rw [queue, hq, List.filter_append]
        simp [queue, hnot]
      · have hj : k = mt.jobId := by simpa using hx
        exact hT (hj ▸ dir.task_of_mem hk')
  · rw [hl]
    exact (h.turn T).quiet (by simp) (by simp)

theorem finish (hp : tr.pending[tr.jobIndex + 1]? = none)
    (htrs : m'.trs = m.trs.insert (dir.task mt.jobId) { tr with mt := { tr.mt with state := .finished } })
    (hq : m'.jobs = m.jobs)
    (hl : m'.log = [.ended tr.mt.id, .updateTask tr.mt.id, .finished mt.jobId, .received mt] ++ m.log) :
    Barriers dir m' := by
  obtain ⟨hpend, hk, hnil, hc, h₀⟩ := h.last_job hf htr hne
  have hget : ∀ T, m'.trs[T]? = if dir.task mt.jobId = T then
      some { tr with mt := { tr.mt with state := .finished } } else m.trs[T]? := by
    rw [htrs]
    exact fun T => ExtMap.getElem?_insert ..
  have hid : tr.mt.id = dir.task mt.jobId := (h.sound.wellformed.task _ _ htr).id
  have hlen : tr.jobIndex + 1 = (dir.jobs (dir.task mt.jobId)).length := by
    have hlt := (List.getElem?_eq_some_iff.mp hk).1
    have hge := List.getElem?_eq_none_iff.mp hp
    have hmap := congrArg List.length (h.sound.wellformed.task _ _ htr).ids
    rw [List.length_map] at hmap
    rw [hpend, TaskResource.refs] at hge
    omega
  have hchain : Chain dir (dir.task mt.jobId) m'.log (tr.jobIndex + 1) (tr.jobIndex + 1) := by
    rw [hl]
    exact hc.finish (hu.jobs _) hk (by simp) (by simp) (by simp [Act.job])
  refine ⟨hs', hu', fun r hr' => ?_, hjobs, fun T => ?_, fun T => ?_⟩
  · rw [hq] at hr'
    obtain ⟨tr₁, htr', hne₁, hmem⟩ := h.housed r hr'
    have hT : dir.task mt.jobId ≠ (m.heap r).mt.taskId := by
      intro hT
      rw [← hT, htr] at htr'
      obtain rfl := Option.some.inj htr'
      exact List.filter_eq_nil_iff.mp hnil r hr' (by simpa using hmem)
    have hold : m'.trs[(m.heap r).mt.taskId]? = some tr₁ := by rw [hget, if_neg hT, htr']
    exact house hs'.wellformed hold hne₁ hmem
  · by_cases hT : dir.task mt.jobId = T
    · subst hT
      refine .ended (fun tr hx => ?_) (hlen ▸ hchain) ?_
      · rw [hget, if_pos rfl] at hx
        cases hx
        rfl
      · rw [hl, List.count_append, h₀, hid]
        simp
    · refine h.unmoved hh ht (by rw [hget, if_neg hT]) (fun _ _ => by rw [queue, hq, queue]) hl ?_
        fun k hk' hx => ?_
      · simp [hid, Ne.symm hT]
      · have hj : k = mt.jobId := by simpa using hx
        exact hT (hj ▸ dir.task_of_mem hk')
  · have hrest : InTurn dir T ([.updateTask tr.mt.id, .finished mt.jobId, .received mt] ++ m.log) :=
      (h.turn T).quiet (by simp) (by simp)
    rw [hl, ← List.singleton_append, List.append_assoc]
    refine hrest.append fun a ha b hab => ?_
    rw [List.mem_singleton.mp ha, hid] at hab
    cases hab with
    | @ended j hj =>
      have hdone := hchain.finished j (by rw [hlen, List.take_length]; exact hj)
      rw [hl] at hdone
      simpa using hdone

end Report

theorem handled (h : Barriers dir m) (hu : dir.Unique) {mt : Meta} (hr : SteadyReport dir m mt)
    (hh : Handled m mt m') (hs' : Sound dir m') (hu' : Untimely dir m') : Barriers dir m' := by
  have ht := handled_told h.sound h.untimely h.started hr hh
  have hjobs : ∀ k, JobTale dir m' k := fun k => (h.job k).handled h.sound hr hh ht
  obtain ⟨tr₀, htr₀, hne⟩ := hr.task
  have hcases := ht
  rcases hcases with ⟨acts, htrs, hq, hl, ha⟩ | ⟨hf, htr, hp, htrs, hq, hl⟩ | ⟨hf, htr, hp, htrs, hq, hl⟩
  · exact h.calm hh ht hjobs hs' hu' htrs hq hl ha
  · obtain rfl := Option.some.inj (htr₀.symm.trans htr)
    exact h.next hh ht hjobs hs' hu' hu hf htr hne hp htrs hq hl
  · obtain rfl := Option.some.inj (htr₀.symm.trans htr)
    exact h.finish hh ht hjobs hs' hu' hu hf htr hne hp htrs hq hl

theorem of_reaches (hu : dir.Unique) (h : Reaches wait (Steady dir) TaskManager.empty m) :
    Barriers dir m := by
  refine Reaches.invariant (I := Barriers dir) h (.empty dir) fun s e t hs he hstep => ?_
  have hs' := hs.sound.waited he.numbered (wait_cases hstep)
  have hst := steady_cases he hstep
  have hu' := hs.untimely.micro hs.sound hu hs.started (hst.micro hs.housed)
  cases hst with
  | idle => exact hs
  | task _ hne hk hnot hn hf hp hr => exact hs.enter hne hk hnot hn hf hp hr rfl hs' hu'
  | job hi _ => exact hs.start hu hi rfl hs' hu'
  | clear hx => exact hs.clear hx hs' hu'
  | handled hr hh => exact hs.handled hu hr hh hs' hu'

theorem ended_count (h : Barriers dir m) (hT : dir.jobs T ≠ []) :
    m.log.count (.ended T) = if ∀ k ∈ dir.jobs T, .finished k ∈ m.log then 1 else 0 := by
  have hopen : ∀ {n s}, n < (dir.jobs T).length → Chain dir T m.log n s →
      ¬ ∀ k ∈ dir.jobs T, .finished k ∈ m.log := by
    intro n s hn hc hall
    have hmem : (dir.jobs T)[n] ∈ (dir.jobs T).drop n := by
      rw [List.drop_eq_getElem_cons hn]
      exact List.mem_cons_self
    exact hc.unfinished _ hmem (hall _ (List.getElem_mem hn))
  cases h.task T with
  | absent _ hc h₀ => rw [h₀, if_neg (hopen (List.length_pos_iff.mpr hT) hc)]
  | queued htr _ _ hr _ hc h₀ =>
    rw [h₀, if_neg (hopen ?_ hc)]
    have hmap := congrArg List.length (h.sound.wellformed.task T _ htr).ids
    rw [List.length_map] at hmap
    have hlt := (List.getElem?_eq_some_iff.mp hr).1
    rw [TaskResource.refs] at hlt
    omega
  | running _ _ _ hk _ hc h₀ => rw [h₀, if_neg (hopen (List.getElem?_eq_some_iff.mp hk).1 hc)]
  | ended _ hc h₁ =>
    rw [h₁, if_pos]
    intro k hk
    exact hc.finished k (by rw [List.take_length]; exact hk)

theorem order (h : Barriers dir m) (T : Nat) : starts dir T m.log <+: dir.jobs T := by
  obtain ⟨n, s, -, hc⟩ := (h.task T).chain
  rw [hc.started]
  exact List.take_prefix s _

theorem isSome_job (h : Barriers dir m) (i : Nat) : (m.wait (.job i)).isSome := by
  simp only [wait]
  cases hi : m.jobs[i]? with
  | none => rfl
  | some ref =>
    obtain ⟨tr, htr, -⟩ := h.housed ref (List.mem_of_getElem? hi)
    simp [htr]

end Barriers

theorem handled_received {mt : Meta} (h : Handled m mt m')
    (hs : mt.state = .confirmed ∨ mt.state = .finished) :
    .received mt ∈ m'.log := by
  cases h with
  | duplicate => exact List.mem_cons_self
  | confirm => exact List.mem_cons_self
  | @confirmLast tj t hj ht =>
    have hk : (m.counted mt tj t { t with confirmed := t.confirmed + 1 }).tjs[mt.jobId]? =
        some (tj.count mt.id { t with confirmed := t.confirmed + 1 }) := by simp [counted, putJob]
    obtain ⟨acts, hl, -⟩ := (Frame.confirmed hk).log
    rw [hl]
    exact List.mem_append_right _ List.mem_cons_self
  | finish => exact List.mem_cons_self
  | finishLast _ _ _ _ _ hm =>
    obtain ⟨-, acts, hl, -⟩ := finished_log hm
    rw [hl]
    exact List.mem_append_right _ (List.mem_cons_of_mem _ List.mem_cons_self)
  | cancel _ hst => simp [hst] at hs
  | timeout hst => simp [hst] at hs
  | jobTimeout hst => simp [hst] at hs
  | stop hst => simp [hst] at hs
  | ignored hst => exact absurd hs (by simp [hst])

/-- A message about a transaction of a started job is handled, until the task has ended. -/
theorem Barriers.heard (h : Barriers dir m) {mt : Meta} {loaded : Option (Task × Nat)}
    (he : Steady dir m (.update mt loaded)) (hst : .started mt.jobId ∈ m.log)
    (hid : mt.id ∈ dir.txs mt.jobId) : ∃ m', m.wait (.update mt loaded) = some m' ∧
      (mt.state = .confirmed ∨ mt.state = .finished → .ended mt.taskId ∈ m.log ∨ .received mt ∈ m'.log) := by
  obtain ⟨⟨hstored, hno⟩, -, hrest⟩ := he
  by_cases hc : mt.state = .taskClear
  · exact ⟨m.clearResource mt.id, by simp only [wait, hc, if_true], by simp [hc]⟩
  · rw [if_neg hc] at hrest
    by_cases hend : .ended mt.taskId ∈ m.log
    · have hfin := (h.of_ended hend).1
      refine ⟨m, ?_, fun _ => .inl hend⟩
      simp only [wait, hc, if_false, find]
      cases htr : m.trs[mt.taskId]? with
      | none => simp [reload_of_finished hstored (hno htr)]
      | some tr => simp [hfin tr htr]
    · cases h.job mt.jobId with
      | unheard _ hn => exact absurd hst hn.not_started
      | closed _ _ hx => exact absurd (hrest.1 ▸ hx) hend
      | @once tj hj =>
        obtain ⟨tr, htr⟩ := Option.isSome_iff_exists.mp (h.sound.wellformed.job _ tj hj).task
        rw [← hrest.1] at htr
        have hne : tr.mt.state ≠ .finished := by
          cases h.task mt.taskId with
          | absent hn => simp [hn] at htr
          | queued ht hne => exact Option.some.inj (htr.symm.trans ht) ▸ hne
          | running ht hne => exact Option.some.inj (htr.symm.trans ht) ▸ hne
          | ended _ _ h₁ => exact absurd (List.count_pos_iff.mp (by omega)) hend
        have hnames : Names dir (fun k => (m.tjs[k]?).isSome) (Retriable m) mt := by
          have hs : (m.tjs[mt.jobId]?).isSome := by simp [hj]
          unfold Names
          split
          · exact ⟨hs, hid⟩
          · exact ⟨hs, hid⟩
          · exact ⟨hs, hid⟩
          · exact fun _ _ => hid
          · trivial
        obtain ⟨m', hm'⟩ := Option.isSome_iff_exists.mp
          ((isSome_handle h.sound.wellformed h.sound.timers mt).mpr hnames)
        refine ⟨m', ?_, fun hs => .inr (handled_received (handle_cases hm') hs)⟩
        simp [wait, hc, find, htr, hne, hm']

/-- The barriers of a task are exact in every state of a steady run. Each job is confirmed
once when all its transactions have reported `CONFIRMED`, and finished once when all have
reported `FINISHED`; the jobs start in their order, each after the one before is finished, and
the task ends once, after its last job. No report of a started job is lost or stops the loop. -/
theorem barriers_exact (hu : dir.Unique) (h : Reaches wait (Steady dir) empty m) (hT : dir.jobs T ≠ []) :
    (∀ k ∈ dir.jobs T, Exact dir k m.log) ∧ starts dir T m.log <+: dir.jobs T ∧ InTurn dir T m.log ∧
      m.log.count (.ended T) = (if ∀ k ∈ dir.jobs T, .finished k ∈ m.log then 1 else 0) ∧
      (∀ i, (m.wait (.job i)).isSome) ∧
      ∀ mt loaded, Steady dir m (.update mt loaded) → .started mt.jobId ∈ m.log →
        mt.id ∈ dir.txs mt.jobId → ∃ m', m.wait (.update mt loaded) = some m' ∧
          (mt.state = .confirmed ∨ mt.state = .finished →
            .ended mt.taskId ∈ m.log ∨ .received mt ∈ m'.log) := by
  have hb := Barriers.of_reaches hu h
  exact ⟨fun k _ => (hb.job k).exact_, hb.order T, hb.turn T, hb.ended_count hT, hb.isSome_job,
    fun _ _ he hst hid => hb.heard he hst hid⟩

/-- The sample task to its end, with reports out of order and repeated and a timeout between. -/
theorem barriers_exact_sample :
    ∃ m, Reaches wait (Steady sampleDirectory) empty m ∧ m.log.count (.ended 1) = 1 ∧
      m.log.count (.confirmed 2) = 1 ∧ starts sampleDirectory 1 m.log = [2, 5] ∧
      (∀ k ∈ sampleDirectory.jobs 1, Exact sampleDirectory k m.log) := by
  obtain ⟨m, hm, hs⟩ := exists_reaches_of_checkedRun wait (Steady sampleDirectory)
    (fun m => m.log.count (.ended 1) = 1 ∧ m.log.count (.confirmed 2) = 1 ∧
      starts sampleDirectory 1 m.log = [2, 5]) empty
    [.task sampleTask, .job 0, .update (sampleMeta 2 4 .confirmed) none,
      .update (sampleMeta 2 3 .transactionTimeout) none, .update (sampleMeta 2 4 .confirmed) none,
      .update (sampleMeta 2 3 .confirmed) none, .update (sampleMeta 2 4 .finished) none,
      .update (sampleMeta 2 3 .confirmed) none, .update (sampleMeta 2 4 .finished) none,
      .update (sampleMeta 2 3 .finished) none, .update (sampleMeta 2 3 .finished) none, .job 0,
      .update (sampleMeta 5 6 .confirmed) none, .update (sampleMeta 5 6 .finished) none,
      .update (sampleMeta 5 6 .finished) none] (by decide +kernel)
  exact ⟨m, hm, hs.1, hs.2.1, hs.2.2, (barriers_exact sampleDirectory_unique hm (by decide)).1⟩

end Tarantula.TaskManager
