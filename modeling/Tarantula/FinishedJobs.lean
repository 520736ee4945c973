import Tarantula.Decision
import Tarantula.MessageSafety
import Tarantula.Progress

/-! Reports about a job that has finished, while its task goes on with a later one. -/

namespace Tarantula.TaskManager

/-- A report about a finished job comes while its task is finished or still holds the job,
and then it is no `CANCELED`. If the task has left the memory, it is stored as finished. -/
def Late (m : TaskManager) : Event → Prop
  | .update mt loaded => System.isReport mt = true → .finished mt.jobId ∈ history mt.jobId m.log →
    (∀ tr ∈ m.trs[mt.taskId]?, tr.mt.state = .finished ∨
      (m.tjs[mt.jobId]?).isSome = true ∧ mt.state ≠ .canceled) ∧
    ((m.trs[mt.taskId]?).isNone = true → ∀ p ∈ loaded, p.1.mt.state = .finished)
  | _ => True

instance (m : TaskManager) : ∀ e : Event, Decidable (Late m e)
  | .update mt _ => inferInstanceAs (Decidable (_ → _ → (∀ tr ∈ m.trs[mt.taskId]?, _) ∧ (_ → _)))
  | .recovery _ _ => inferInstanceAs (Decidable True)
  | .task _ => inferInstanceAs (Decidable True)
  | .job _ => inferInstanceAs (Decidable True)

/-- Genuine events whose late reports find their job as it finished. -/
def Calm (dir : Directory) (m : TaskManager) (e : Event) : Prop := e.Genuine dir m ∧ Late m e

instance (dir : Directory) (m : TaskManager) (e : Event) : Decidable (Calm dir m e) :=
  inferInstanceAs (Decidable (_ ∧ _))

/-- A step that does nothing but for the counters and timers of job `k` itself. -/
structure Inert (dir : Directory) (k : Nat) (m m' : TaskManager) : Prop where
  trs : m'.trs = m.trs
  tjs : ∀ j : Nat, j ≠ k → m'.tjs[j]? = m.tjs[j]?
  heap : ∀ r, m.jobId r ≠ k → m'.heap r = m.heap r
  tms : ∀ id : Nat, id ∉ dir.txs k → m'.tms[id]? = m.tms[id]?
  jobs : m'.jobs = m.jobs
  asks : ∃ acts, m'.log = acts ++ m.log ∧ ∀ tc, .askReserve tc ∉ acts ∧ .askFinish tc ∉ acts

variable {dir : Directory} {m m' : TaskManager} {T : Nat} {tr : TaskResource}

def NotCanceled (m : TaskManager) (mt : Meta) : Prop :=
  mt.state = .canceled → (m.marks mt.jobId).finished = false

/-- The jobs of a task in a calm run, also after one of them is canceled. -/
structure Closing (dir : Directory) (m : TaskManager) (T : Nat) (tr : TaskResource) : Prop where
  progress : Progress dir m T tr
  full : ∀ k, dir.task k = T → (m.marks k).finished = true → m.Full k
  empty : tr.canceled = true → m.queue tr = []
  only : tr.canceled = true → ∀ k, dir.task k = T → (m.marks k).started = true →
    (m.marks k).finished = true ∨ (m.marks k).canceled = true

namespace Closing

theorem same (h : Closing dir m T tr) (hp : Progress dir m' T tr)
    (hm : ∀ k, dir.task k = T → m'.marks k = m.marks k)
    (hfull : ∀ k, dir.task k = T → m.Full k → m'.Full k) (hq : m'.queue tr = m.queue tr) :
    Closing dir m' T tr := by
  refine ⟨hp, fun k hk => ?_, by rw [hq]; exact h.empty, fun hc k hk => ?_⟩
  · rw [hm k hk]
    exact fun hf => hfull k hk (h.full k hk hf)
  · rw [hm k hk]
    exact h.only hc k hk

theorem started (h : Closing dir m T tr) (hp : Progress dir m' T tr) {ref : Ref} (hr : ref ∈ m.queue tr)
    (href : m'.marks (m.jobId ref) = ⟨true, false, false⟩)
    (hm : ∀ k, m.jobId ref ≠ k → m'.marks k = m.marks k)
    (hfull : ∀ k, m.jobId ref ≠ k → m.Full k → m'.Full k) : Closing dir m' T tr := by
  have hc : tr.canceled = false := by
    rw [Bool.eq_false_iff]
    intro hc
    simp [h.empty hc] at hr
  refine ⟨hp, fun k hk hf => ?_, fun hx => by simp [hc] at hx, fun hx => by simp [hc] at hx⟩
  by_cases he : m.jobId ref = k
  · simp [← he, href] at hf
  · rw [hm k he] at hf
    exact hfull k he (h.full k hk hf)

theorem canceled (h : Closing dir m T tr)
    (hp : Progress dir m' T { tr with jobIndex := tr.pending.length, canceled := true }) {j : Nat}
    (hT : dir.task j = T) (hs : (m.marks j).started = true) (hf : (m.marks j).finished = false)
    (hq : m'.queue tr = m.queue tr)
    (hm : ∀ k, m'.marks k = if j = k then { m.marks k with canceled := true } else m.marks k)
    (hfull : ∀ k, j ≠ k → m.Full k → m'.Full k) :
    Closing dir m' T { tr with jobIndex := tr.pending.length, canceled := true } := by
  refine ⟨hp, fun k hk hx => ?_, fun _ => ?_, fun _ k hk hx => ?_⟩
  · by_cases he : j = k
    · rw [hm, if_pos he] at hx
      simp [← he, hf] at hx
    · rw [hm, if_neg he] at hx
      exact hfull k he (h.full k hk hx)
  · exact hq.trans (h.progress.queue_nil hT hs hf)
  · by_cases he : j = k
    · rw [hm, if_pos he]
      exact .inr rfl
    · rw [hm, if_neg he] at hx ⊢
      cases hc : tr.canceled with
      | true => exact h.only hc k hk hx
      | false => exact .inl (h.progress.finished_of_ne hc hT hs hf hk hx he)

theorem step (hu : dir.Unique) (hw : Wellformed dir m) (hne : tr.mt.state ≠ .finished)
    (hs : TaskStep dir NotCanceled m m' T tr)
    (h : ∀ tr₀, m.trs[T]? = some tr₀ → tr₀.mt.state ≠ .finished → Closing dir m T tr₀) :
    Closing dir m' T tr := by
  have hp := Progress.step hu hw hne hs fun tr₀ htr₀ hne₀ => (h tr₀ htr₀ hne₀).progress
  -- a task that has just come in, or goes on, is not canceled
  have hnew : tr.canceled = false → (∀ k, dir.task k = T → (m'.marks k).finished = true → m'.Full k) →
      Closing dir m' T tr := fun hc hfull =>
    ⟨hp, hfull, fun hx => by simp [hc] at hx, fun hx => by simp [hc] at hx⟩
  cases hs with
  | same htr hm hfull hq _ => exact (h tr htr hne).same hp hm hfull hq
  | queued _ hn => exact hnew hn.canceled (hp.full hn.canceled)
  | running _ hn => exact hnew hn.canceled (hp.full hn.canceled)
  | jobless _ hn => exact hnew hn.canceled (hp.full hn.canceled)
  | started htr hi hr _ _ href hm hfull _ =>
    exact (h tr htr hne).started hp (List.mem_filter.mpr ⟨List.mem_of_getElem? hi, by simpa using hr⟩)
      href hm hfull
  | canceled hQ hst hT hj htr hq hm hfull _ =>
    exact (h _ htr hne).canceled hp hT (started_of_entry hj) (hQ hst) hq hm hfull
  | @next tr₀ tj mt ref hf hT htr hpend =>
    have hc : tr₀.canceled = false := by
      rw [Bool.eq_false_iff]
      intro hx
      have hle := (h tr₀ htr hne).progress.closing hx
      have hlt := (List.getElem?_eq_some_iff.mp hpend).1
      omega
    exact hnew hc (hp.full hc)

end Closing

theorem marks_finished {k : Nat} : (m.marks k).finished = true ↔ .finished k ∈ history k m.log := by
  simp [marks, finished_mem_history]

theorem Calm.notCanceled {e : Event} (h : Calm dir m e) : OnHandled NotCanceled m e := by
  cases e with
  | update mt loaded =>
    rintro - ⟨m₁, r⟩ hf tr hr hne hst
    rw [Bool.eq_false_iff]
    intro hfin
    have hreport : System.isReport mt = true := by simp [System.isReport, hst]
    have hr : r = some tr := hr
    rcases find_cases hf with ⟨rfl, tr', hr', htr⟩ | ⟨hk, -⟩
    · rcases (h.2 hreport (marks_finished.mp hfin)).1 tr' htr with hx | ⟨-, hx⟩
      · exact hne (by rwa [Option.some.inj (hr.symm.trans hr')])
      · exact hx hst
    · have hload : m.reload mt.taskId loaded = some (m₁, r) := by
        rw [← (by simp [TaskManager.find, hk] : m.find mt loaded = m.reload mt.taskId loaded)]
        exact hf
      have hall := (h.2 hreport (marks_finished.mp (reload_finished hload hfin))).2 (by simp [hk])
      rw [reload_of_finished h.1.1 hall] at hload
      simp [hr] at hload
  | recovery => trivial
  | task => trivial
  | job => trivial

theorem closing_of_reaches (hu : dir.Unique) (h : Reaches wait (Calm dir) empty m) :
    Sound dir m ∧ Taskwise (Closing dir) m := by
  refine Reaches.invariant (I := fun m => Sound dir m ∧ Taskwise (Closing dir) m) h ⟨.empty dir, ?_⟩ ?_
  · intro T tr htr
    simp [empty] at htr
  · rintro s e t ⟨hs, hc⟩ he hstep
    exact ⟨hs.waited he.1.numbered (wait_cases hstep), hc.wait hs he.1 he.notCanceled
      (fun _ _ _ _ hw hne hst hx => Closing.step hu hw hne hst hx) hstep⟩

theorem Inert.of_full (hw : Wellformed dir m) {mt : Meta} (hid : mt.id ∈ dir.txs mt.jobId)
    (hst : System.isReport mt = true) (hc : mt.state ≠ .canceled) (hfull : m.Full mt.jobId)
    (h : Handled m mt m') : Inert dir mt.jobId m m' := by
  have htms : ∀ id : Nat, id ∉ dir.txs mt.jobId → (m.tms.erase mt.id)[id]? = m.tms[id]? := by
    intro id hn
    rw [ExtMap.getElem?_erase, if_neg]
    rintro rfl
    exact hn hid
  have hcount : ∀ {tj t} t', m.tjs[mt.jobId]? = some tj →
      Inert dir mt.jobId m (m.counted mt tj t t') := by
    intro tj t t' hj
    refine ⟨rfl, fun j hj' => ?_, fun r hr => ?_, htms, rfl, [.received mt], rfl, by simp⟩
    · simp only [counted, putJob, receive_tjs, ExtMap.getElem?_insert]
      rw [if_neg fun he => hj' he.symm]
    · have hne : r ≠ tj.resource := by
        rintro rfl
        exact hr (hw.job _ tj hj).id
      simp [counted, putJob, JobResource.count, hne]
  cases h with
  | duplicate => exact ⟨rfl, fun _ _ => rfl, fun _ _ => rfl, htms, rfl, [.received mt], rfl, by simp⟩
  | confirm hj => exact hcount _ hj
  | finish hj => exact hcount _ hj
  | confirmLast hj _ _ _ hl =>
    have := hfull _ hj
    omega
  | finishLast hj _ _ _ hl =>
    have := hfull _ hj
    omega
  | cancel _ hs => exact absurd hs hc
  | timeout hs => simp [System.isReport, hs] at hst
  | jobTimeout hs => simp [System.isReport, hs] at hst
  | stop hs => simp [System.isReport, hs] at hst
  | ignored hs => simp [System.isReport, hs] at hst

theorem names_of_report {started armed : Nat → Prop} {mt : Meta} (hr : System.isReport mt = true)
    (hs : started mt.jobId) (hid : mt.id ∈ dir.txs mt.jobId) : Names dir started armed mt := by
  simp only [System.isReport, Bool.or_eq_true, beq_iff_eq] at hr
  unfold Names
  rcases hr with (hr | hr) | hr <;> simp [hr, hs, hid]

theorem inert_of_late (hs : Sound dir m) (hcl : Taskwise (Closing dir) m) {mt : Meta}
    {loaded : Option (Task × Nat)} (hr : System.isReport mt = true) (hid : mt.id ∈ dir.txs mt.jobId)
    (hf : .finished mt.jobId ∈ history mt.jobId m.log) (hc : Calm dir m (.update mt loaded)) :
    ∃ m', m.wait (.update mt loaded) = some m' ∧ Inert dir mt.jobId m m' := by
  have hclear : mt.state ≠ .taskClear := by
    rintro he
    simp [System.isReport, he] at hr
  have hnone : Inert dir mt.jobId m m :=
    ⟨rfl, fun _ _ => rfl, fun _ _ => rfl, fun _ _ => rfl, rfl, [], rfl, by simp⟩
  have htask := hc.1.2
  rw [if_neg hclear] at htask
  obtain ⟨hin, hout⟩ := hc.2 hr hf
  cases htr : m.trs[mt.taskId]? with
  | none =>
    have hload := reload_of_finished (m := m) hc.1.1 (hout (by simp [htr]))
    exact ⟨m, by simp [wait, hclear, TaskManager.find, htr, hload], hnone⟩
  | some tr =>
    rcases hin tr htr with hfin | ⟨hj, hst⟩
    · exact ⟨m, by simp [wait, hclear, TaskManager.find, htr, hfin], hnone⟩
    · by_cases hfin : tr.mt.state = .finished
      · exact ⟨m, by simp [wait, hclear, TaskManager.find, htr, hfin], hnone⟩
      · obtain ⟨m', hm'⟩ := Option.isSome_iff_exists.mp
          ((isSome_handle hs.wellformed hs.timers mt).mpr (names_of_report hr hj hid))
        have hwait : m.wait (.update mt loaded) = some m' := by
          simp [wait, hclear, TaskManager.find, htr, hfin, hm']
        have hfull := (hcl _ tr htr hfin).full _ htask.symm (marks_finished.mpr hf)
        exact ⟨m', hwait, .of_full hs.wellformed hid hr hst hfull (handle_cases hm')⟩

/-- The task that a reload brings in is not finished. -/
theorem find_finished {mt : Meta} {loaded : Option (Task × Nat)} {r : Option TaskResource}
    (hf : m.find mt loaded = some (m', r)) (htr : m'.trs[T]? = some tr) (hfin : tr.mt.state = .finished) :
    m.trs[T]? = some tr := by
  rcases find_enters hf with rfl | ⟨-, hr⟩
  · exact htr
  · rcases reload_enters hr with rfl | ⟨task, rev, tr₁, -, -, -, hne, hm'⟩
    · exact htr
    · have htrs : m'.trs = m.trs.insert mt.taskId tr₁ := by
        rcases hm' with ⟨-, rfl, -⟩ | ⟨ref, rest, -, rfl⟩ <;> rfl
      rw [htrs, ExtMap.getElem?_insert] at htr
      split at htr
      · cases htr
        exact absurd hfin hne
      · exact htr

/-- The last `FINISHED` of a job ends its task only when every pending job has finished or
the job was canceled. -/
theorem Closing.finish (h : Closing dir m T tr) {mt : Meta} {tj : JobResource}
    (hf : LastFinished m mt tj) (hT : dir.task mt.jobId = T) (hp : tr.pending[tr.jobIndex + 1]? = none) :
    (∀ r ∈ tr.pending, (m.marks (m.jobId r)).finished = true ∨ mt.jobId = m.jobId r) ∨
      (m.marks mt.jobId).canceled = true := by
  have hs := started_of_entry hf.job
  have hun := hf.unfinished (h.full _ hT)
  cases hc : tr.canceled with
  | true =>
    rcases h.only hc _ hT hs with hx | hx
    · simp [hun] at hx
    · exact .inr hx
  | false =>
    refine .inl fun r hr => ?_
    obtain ⟨i, hi⟩ := List.getElem?_of_mem hr
    have hlen := List.getElem?_eq_none_iff.mp hp
    have hlt := (List.getElem?_eq_some_iff.mp hi).1
    rcases Nat.lt_or_eq_of_le (Nat.le_of_lt_succ (Nat.lt_of_lt_of_le hlt hlen)) with hlt | rfl
    · exact .inl (h.progress.done hc i hlt r hi)
    · obtain ⟨r', hr', he⟩ := h.progress.current hc _ hT hs hun
      obtain rfl := Option.some.inj (hr'.symm.trans hi)
      exact .inr he.symm

theorem ends_done (hs : Sound dir m) (hcl : Taskwise (Closing dir) m) (hu : dir.Unique) {mt : Meta}
    {loaded : Option (Task × Nat)} (hg : Event.Genuine dir m (.update mt loaded))
    (hw : m.wait (.update mt loaded) = some m') (hst : mt.state = .finished)
    (hun : ∀ tr₀ ∈ m.trs[T]?, tr₀.mt.state ≠ .finished) (htr : m'.trs[T]? = some tr)
    (hfin : tr.mt.state = .finished) :
    (∀ r ∈ tr.pending, (m'.marks (m'.jobId r)).finished = true) ∨ (m'.marks mt.jobId).canceled = true := by
  obtain ⟨m₁, r, hf, hm'⟩ := update_cases (by simp [hst]) hw
  have hs₁ := hs.find hg.1 hf
  have hun₁ : ∀ tr₀, m₁.trs[T]? = some tr₀ → tr₀.mt.state ≠ .finished :=
    fun tr₀ htr₀ hx => hun tr₀ (find_finished hf htr₀ hx) hx
  rcases hm' with rfl | ⟨tr₁, -, -, hh⟩
  · exact absurd hfin (hun₁ tr htr)
  · have hcl₁ : Taskwise (Closing dir) m₁ :=
      hcl.micro hs (fun _ _ _ _ hw hne hst hx => Closing.step hu hw hne hst hx) (.find hg.1 hf)
    have hid := jobId_of_frame (Frame.handled hh)
    cases handled_effect hs₁.wellformed hh with
    | calm _ htrs => exact absurd hfin (hun₁ tr (htrs ▸ htr))
    | cancel hx => simp [hst] at hx
    | @next tj tr₀ ref hlf htr₀ hp htrs =>
      rw [htrs, ExtMap.getElem?_insert] at htr
      split at htr
      · next he =>
        cases htr
        exact absurd hfin (hun₁ tr₀ (he ▸ htr₀))
      · exact absurd hfin (hun₁ tr htr)
    | @finish tj tr₀ hlf htr₀ hp htrs _ hm =>
      rw [htrs, ExtMap.getElem?_insert] at htr
      split at htr
      · next he =>
        cases htr
        subst he
        refine ((hcl₁ _ tr₀ htr₀ (hun₁ tr₀ htr₀)).finish hlf rfl hp).imp (fun hall r hr => ?_) fun hx => ?_
        · rw [hid, hm]
          rcases hall r hr with hx | hx
          · split <;> simp [hx]
          · rw [if_pos hx]
        · rw [hm, if_pos rfl]
          exact hx
      · exact absurd hfin (hun₁ tr htr)
    | stop hx => simp [hst] at hx

/-- In every calm run a report about a finished job is inert, and `finished` ends a task
only when every pending job has finished or the job that is reported was canceled. -/
theorem late_reports_inert (hu : dir.Unique) (h : Reaches wait (Calm dir) empty m) :
    (∀ mt loaded, System.isReport mt = true → mt.id ∈ dir.txs mt.jobId →
      .finished mt.jobId ∈ history mt.jobId m.log → Calm dir m (.update mt loaded) →
      ∃ m', m.wait (.update mt loaded) = some m' ∧ Inert dir mt.jobId m m') ∧
    ∀ (mt : Meta) loaded m' (T : Nat) tr, Calm dir m (.update mt loaded) →
      m.wait (.update mt loaded) = some m' → mt.state = .finished →
      (∀ tr₀ ∈ m.trs[T]?, tr₀.mt.state ≠ .finished) → m'.trs[T]? = some tr →
      tr.mt.state = .finished →
      (∀ r ∈ tr.pending, .finished (m'.jobId r) ∈ history (m'.jobId r) m'.log) ∨
        .canceled mt.jobId ∈ since mt.jobId m'.log := by
  obtain ⟨hs, hcl⟩ := closing_of_reaches hu h
  refine ⟨fun mt loaded hr hid hf hc => inert_of_late hs hcl hr hid hf hc, ?_⟩
  intro mt loaded m' T tr hc hw hst hun htr hfin
  rcases ends_done hs hcl hu hc.1 hw hst hun htr hfin with hall | hcan
  · exact .inl fun r hr => marks_finished.mp (hall r hr)
  · exact .inr (by simpa [marks] using hcan)

/-- Job 2 finishes, job 5 starts and transaction 3 confirms once more. -/
theorem late_reports_inert_sample :
    ∃ m m', Reaches wait (Calm sampleDirectory) empty m ∧ (m.tjs[5]?).isSome = true ∧
      m.wait (.update (sampleMeta 2 3 .confirmed) none) = some m' ∧ Inert sampleDirectory 2 m m' := by
  obtain ⟨m, hm, hstart, hf, hc⟩ := exists_reaches_of_checkedRun wait (Calm sampleDirectory)
    (fun m => (m.tjs[5]?).isSome = true ∧ .finished 2 ∈ history 2 m.log ∧
      Calm sampleDirectory m (.update (sampleMeta 2 3 .confirmed) none)) empty
    [.task sampleTask, .job 0, .update (sampleMeta 2 3 .confirmed) none,
      .update (sampleMeta 2 4 .confirmed) none, .update (sampleMeta 2 3 .finished) none,
      .update (sampleMeta 2 4 .finished) none, .job 0] (by decide)
  obtain ⟨m', hw, hi⟩ := (late_reports_inert sampleDirectory_unique hm).1 (sampleMeta 2 3 .confirmed) none
    (by decide) (by decide) hf hc
  exact ⟨m, m', hm, hstart, hw, hi⟩

/-- Job 2 has finished and job 5 is running when transaction 3 reports `CANCELED`: the
task is canceled and both transactions of job 2 are asked to finish again. -/
theorem late_cancel_not_inert :
    ∃ m m', Reaches wait (fun m e => e.Genuine sampleDirectory m) empty m ∧
      .finished 2 ∈ history 2 m.log ∧
      Event.Genuine sampleDirectory m (.update (sampleMeta 2 3 .canceled) none) ∧
      m.wait (.update (sampleMeta 2 3 .canceled) none) = some m' ∧ ¬ Inert sampleDirectory 2 m m' := by
  obtain ⟨m, hm, hf, hg, hx⟩ := exists_reaches_of_checkedRun wait (fun m e => e.Genuine sampleDirectory m)
    (fun m => .finished 2 ∈ history 2 m.log ∧
      Event.Genuine sampleDirectory m (.update (sampleMeta 2 3 .canceled) none) ∧
      ∃ m' ∈ m.wait (.update (sampleMeta 2 3 .canceled) none),
        (m'.trs[1]?).map (·.jobIndex) ≠ (m.trs[1]?).map (·.jobIndex)) empty
    [.task sampleTask, .job 0, .update (sampleMeta 2 3 .confirmed) none,
      .update (sampleMeta 2 4 .confirmed) none, .update (sampleMeta 2 3 .finished) none,
      .update (sampleMeta 2 4 .finished) none, .job 0] (by decide)
  obtain ⟨m', hm', hne⟩ := hx
  exact ⟨m, m', hm, hf, hg, hm', fun hi => hne (by rw [hi.trs])⟩

end Tarantula.TaskManager
