import Tarantula.JobReservations

/-! Reservations at the end of a task. While a task runs, all of its started jobs but
one are complete, so a task that ends in order has no reservation left undecided. -/

namespace Tarantula

def TaskResource.refs (tr : TaskResource) : List Ref := tr.validator.toList ++ tr.jobs

namespace TaskManager

/-- The order in which an unfinished task `T` runs its jobs. -/
structure TaskOrder (dir : Directory) (m : TaskManager) (T : Nat) (tr : TaskResource) : Prop where
  alone : ∀ (k k' : Nat) tj tj', m.tjs[k]? = some tj → m.tjs[k']? = some tj' → dir.task k = T →
    dir.task k' = T → k ≠ k' → Complete dir k (history k m.log) ∨ Complete dir k' (history k' m.log)
  queued : ∀ r ∈ m.jobs, r ∈ tr.refs → ∀ (k : Nat) tj, m.tjs[k]? = some tj → dir.task k = T →
    Complete dir k (history k m.log)
  once : (m.jobs.filter (· ∈ tr.refs)).length ≤ 1
  confirming : tr.canceled = false → ∀ (k : Nat) tj, m.tjs[k]? = some tj → dir.task k = T →
    Confirming dir k tj (history k m.log)
  closing : tr.canceled = true → tr.pending.length ≤ tr.jobIndex

theorem TaskOrder.sub {dir : Directory} {m m' : TaskManager} {T : Nat} {tr : TaskResource}
    (h : TaskOrder dir m T tr) (hj : ∀ (k : Nat) tj, m'.tjs[k]? = some tj → dir.task k = T →
      m.tjs[k]? = some tj ∧ history k m'.log = history k m.log)
    (hq : (m'.jobs.filter (· ∈ tr.refs)).Sublist (m.jobs.filter (· ∈ tr.refs))) :
    TaskOrder dir m' T tr := by
  refine ⟨fun k k' tj tj' hk hk' hT hT' hd => ?_, fun r hr hmem k tj hk hT => ?_,
    Nat.le_trans hq.length_le h.once, fun hc k tj hk hT => ?_, h.closing⟩
  · rw [(hj k tj hk hT).2, (hj k' tj' hk' hT').2]
    exact h.alone k k' tj tj' (hj k tj hk hT).1 (hj k' tj' hk' hT').1 hT hT' hd
  · have hr₀ := hq.subset (List.mem_filter.mpr ⟨hr, by simpa using hmem⟩)
    rw [(hj k tj hk hT).2]
    exact h.queued r (List.mem_filter.mp hr₀).1 hmem k tj (hj k tj hk hT).1 hT
  · rw [(hj k tj hk hT).2]
    exact h.confirming hc k tj (hj k tj hk hT).1 hT

/-- The reservations in a run whose tasks run in order. -/
structure Reserved (dir : Directory) (m : TaskManager) : Prop where
  order : ∀ (T : Nat) tr, m.trs[T]? = some tr → tr.mt.state ≠ .finished → TaskOrder dir m T tr
  owed : ∀ (k : Nat) tj, m.tjs[k]? = some tj → Owed dir k (history k m.log) m.log
  settled : ∀ k : Nat, (m.tjs[k]? = none ∨
    ∃ tr, m.trs[dir.task k]? = some tr ∧ tr.mt.state = .finished) → Settled dir k m.log
  ends : EndsSettled dir m.log

namespace Reserved

variable {dir : Directory} {m m' : TaskManager}

theorem empty (dir : Directory) : Reserved dir TaskManager.empty := by
  refine ⟨fun T tr h => ?_, fun k tj h => ?_, fun k _ id _ h => ?_, trivial⟩
  · simp [TaskManager.empty] at h
  · simp [TaskManager.empty] at h
  · simp [TaskManager.empty, reported, receivedAny] at h

theorem of_silent (h : Reserved dir m) (htjs : m'.tjs = m.tjs) {acts : List Act}
    (hl : m'.log = acts ++ m.log) (hn : NoEnd acts) (hs : Silent m.log m'.log)
    (hh : ∀ k, history k m'.log = history k m.log)
    (ho : ∀ (T : Nat) tr, m'.trs[T]? = some tr → tr.mt.state ≠ .finished → TaskOrder dir m' T tr)
    (hf : ∀ (T : Nat) tr, m'.trs[T]? = some tr → tr.mt.state = .finished →
      (∃ tr₀, m.trs[T]? = some tr₀ ∧ tr₀.mt.state = .finished) ∨
        ∀ k : Nat, dir.task k = T → m.tjs[k]? = none) : Reserved dir m' := by
  have hset : ∀ k, Settled dir k m.log → Settled dir k m'.log := by
    intro k hk
    simpa only [Settled, reported, asked, hs.receivedAny, hs.askedAny] using hk
  refine ⟨ho, fun k tj hk => ?_, fun k hk => ?_, ?_⟩
  · have h₀ := h.owed k tj (htjs ▸ hk)
    simpa only [Owed, hh, reported, asked, hs.receivedAny, hs.askedAny] using h₀
  · apply hset
    rcases hk with hk | ⟨tr, htr, hfin⟩
    · exact h.settled k (.inl (htjs ▸ hk))
    · rcases hf _ tr htr hfin with hx | hx
      · exact h.settled k (.inr hx)
      · exact h.settled k (.inl (hx k rfl))
  · rw [hl, endsSettled_append _ hn]
    exact h.ends

theorem no_entry (hw : Wellformed dir m) {T : Nat} (hT : m.trs[T]? = none) {k : Nat}
    (hk : dir.task k = T) : m.tjs[k]? = none := by
  cases hj : m.tjs[k]? with
  | none => rfl
  | some tj =>
    have ht := (hw.job k tj hj).task
    simp [hk, hT] at ht

theorem ref_ids (hw : Wellformed dir m) {T : Nat} {tr : TaskResource} (hT : m.trs[T]? = some tr)
    {r : Ref} (hr : r ∈ tr.refs) : (m.heap r).mt.id ∈ dir.jobs T ∧ r < m.next := by
  have hent := hw.task T tr hT
  exact ⟨hent.ids ▸ List.mem_map_of_mem hr, hent.lt r hr⟩

theorem refs_apart (hw : Wellformed dir m) {T T' : Nat} {tr tr' : TaskResource}
    (hT : m.trs[T]? = some tr) (hT' : m.trs[T']? = some tr') {r : Ref} (hr : r ∈ tr.refs)
    (hr' : r ∈ tr'.refs) : T = T' := by
  rw [← dir.task_of_mem (ref_ids hw hT hr).1, ← dir.task_of_mem (ref_ids hw hT' hr').1]

theorem not_queued (hw : Wellformed dir m) {task : Task} {tr : TaskResource}
    (hn : NewTask m task tr) : ∀ r ∈ m.jobs, r ∉ tr.refs := by
  intro r hr hmem
  have hlt := hw.queued r hr
  simp only [TaskResource.refs, hn.refs, List.mem_range'] at hmem
  obtain ⟨i, -, rfl⟩ := hmem
  exact absurd hlt (Nat.not_lt.mpr (Nat.le_add_right _ _))

/-- A task that was not in memory comes in, with a job of it queued or not. -/
theorem introduce (h : Reserved dir m) (hw : Wellformed dir m) {task : Task} {tr : TaskResource}
    (hn : NewTask m task tr) (ht : task.Numbered dir) (hT : m.trs[task.mt.id]? = none)
    (queue : List Ref) (acts : List Act) (hq : queue.length ≤ 1) (hqr : ∀ r ∈ queue, r ∈ tr.refs)
    (htrs : m'.trs = (m.introduce task.mt.id task tr).trs) (htjs : m'.tjs = m.tjs)
    (hjobs : m'.jobs = m.jobs ++ queue) (hl : m'.log = acts ++ m.log) (hne : NoEnd acts)
    (hs : Silent m.log m'.log) (hh : ∀ k, history k m'.log = history k m.log) :
    Reserved dir m' := by
  have hw' := hw.introduce hn ht
  have hget := Wellformed.introduce_trs m task.mt.id task tr
  have hsplit : ∀ (T : Nat) tr', m'.trs[T]? = some tr' →
      T = task.mt.id ∧ tr' = tr ∨ T ≠ task.mt.id ∧ m.trs[T]? = some tr' := by
    intro T tr' hk
    rw [htrs] at hk
    simp only [TaskManager.introduce, putTask, ExtMap.getElem?_insert] at hk
    split at hk
    · next he =>
      cases hk
      exact .inl ⟨he.symm, rfl⟩
    · next he => exact .inr ⟨fun h => he h.symm, hk⟩
  refine h.of_silent htjs hl hne hs hh (fun T tr' hk hne' => ?_) fun T tr' hk hfin => ?_
  · rcases hsplit T tr' hk with ⟨rfl, rfl⟩ | ⟨hT', hk⟩
    · -- no job of the new task is started, and what is queued of it is new
      have hnone : ∀ (k : Nat) tj, m'.tjs[k]? = some tj → dir.task k ≠ task.mt.id := by
        intro k tj hj hk
        rw [htjs, no_entry hw hT hk] at hj
        cases hj
      refine ⟨fun k _ tj _ hj _ hk => absurd hk (hnone k tj hj),
        fun _ _ _ k tj hj hk => absurd hk (hnone k tj hj), ?_,
        fun _ k tj hj hk => absurd hk (hnone k tj hj), fun hc => by simp [hn.canceled] at hc⟩
      have hold : m.jobs.filter (· ∈ tr'.refs) = [] := by
        rw [List.filter_eq_nil_iff]
        simpa using not_queued hw hn
      rw [hjobs, List.filter_append, hold, List.nil_append]
      exact Nat.le_trans (List.length_filter_le _ _) hq
    · have hq' : ∀ r ∈ queue, r ∉ tr'.refs := by
        intro r hr hmem
        have hin : (m.introduce task.mt.id task tr).trs[T]? = some tr' := by
          simp only [TaskManager.introduce, putTask, ExtMap.getElem?_insert]
          rw [if_neg fun h => hT' h.symm]
          exact hk
        exact hT' (refs_apart hw' hin hget hmem (hqr r hr))
      have hfilter : m'.jobs.filter (· ∈ tr'.refs) = m.jobs.filter (· ∈ tr'.refs) := by
        have hnil : queue.filter (· ∈ tr'.refs) = [] := by
          rw [List.filter_eq_nil_iff]
          simpa using hq'
        rw [hjobs, List.filter_append, hnil, List.append_nil]
      exact (h.order T tr' hk hne').sub (fun k tj hj _ => ⟨htjs ▸ hj, hh k⟩) (hfilter ▸ .refl _)
  · rcases hsplit T tr' hk with ⟨rfl, rfl⟩ | ⟨-, hk⟩
    · exact .inr fun k hk => no_entry hw hT hk
    · exact .inl ⟨tr', hk, hfin⟩

/-- A job is started while all started jobs of its task are complete and none of the
task is queued. -/
theorem start (h : Reserved dir m) (hw : Wellformed dir m) {ref : Ref} (hr : ref < m.next)
    (hfree : ∀ tr, m.trs[(m.heap ref).mt.taskId]? = some tr → tr.mt.state ≠ .finished →
      (∀ r ∈ m.jobs, r ∉ tr.refs) ∧ ∀ (k : Nat) tj, m.tjs[k]? = some tj →
        dir.task k = (m.heap ref).mt.taskId → Complete dir k (history k m.log))
    (hin : (m.trs[(m.heap ref).mt.taskId]?).isSome) : Reserved dir (m.start ref) := by
  have hnum := hw.numbered ref hr
  have htask : dir.task (m.heap ref).mt.id = (m.heap ref).mt.taskId := dir.task_of_mem hnum.mem
  have hsil := silent_start m ref
  have hset : ∀ k, Settled dir k m.log → Settled dir k (m.start ref).log := by
    intro k hk
    simpa only [Settled, reported, asked, hsil.receivedAny, hsil.askedAny] using hk
  have hsettled : Settled dir (m.heap ref).mt.id m.log := by
    obtain ⟨tr, htr⟩ := Option.isSome_iff_exists.mp hin
    by_cases hfin : tr.mt.state = .finished
    · exact h.settled _ (.inr ⟨tr, htask ▸ htr, hfin⟩)
    · cases hj : m.tjs[(m.heap ref).mt.id]? with
      | none => exact h.settled _ (.inl hj)
      | some tj =>
        exact (h.owed _ tj hj).settled ((hfree tr htr hfin).2 _ tj hj htask).decided
  have hentry : ∀ (k : Nat) tj, (m.start ref).tjs[k]? = some tj → k ≠ (m.heap ref).mt.id →
      m.tjs[k]? = some tj ∧ history k (m.start ref).log = history k m.log := by
    intro k tj hj hk
    rw [Wellformed.start_tjs, ExtMap.getElem?_insert, if_neg fun h => hk h.symm] at hj
    exact ⟨hj, by rw [history_start, if_neg fun h => hk h.symm]⟩
  refine ⟨fun T tr hT hne => ?_, fun k tj hj => ?_, fun k hk => hset k ?_, ?_⟩
  · have h₀ := h.order T tr hT hne
    -- the jobs of `T` other than the one that is started
    have hothers : T = (m.heap ref).mt.taskId → ∀ (k : Nat) tj, (m.start ref).tjs[k]? = some tj →
        dir.task k = T → k ≠ (m.heap ref).mt.id → Complete dir k (history k (m.start ref).log) := by
      intro he k tj hj hk hne'
      obtain ⟨hj₀, hh⟩ := hentry k tj hj hne'
      rw [hh]
      exact (hfree tr (he ▸ hT) hne).2 k tj hj₀ (he ▸ hk)
    by_cases he : T = (m.heap ref).mt.taskId
    · refine ⟨fun k k' tj tj' hj hj' hk hk' hd => ?_, fun r hr hmem => ?_, h₀.once,
        fun hc k tj hj hk => ?_, h₀.closing⟩
      · by_cases hx : k = (m.heap ref).mt.id
        · exact .inr (hothers he k' tj' hj' hk' fun h => hd (hx.trans h.symm))
        · exact .inl (hothers he k tj hj hk hx)
      · exact absurd hmem ((hfree tr (he ▸ hT) hne).1 r hr)
      · by_cases hx : k = (m.heap ref).mt.id
        · subst hx
          rw [history_start, if_pos rfl]
          exact ⟨fun _ _ _ => rfl, fun hd => by simp [decided, askedAny] at hd,
            fun hd => by simp [decided, askedAny] at hd⟩
        · obtain ⟨hj₀, hh⟩ := hentry k tj hj hx
          rw [hh]
          exact h₀.confirming hc k tj hj₀ hk
    · have hne' : ∀ k, dir.task k = T → k ≠ (m.heap ref).mt.id := by
        rintro k hk rfl
        exact he (hk.symm.trans htask)
      exact h₀.sub (fun k tj hj hk => hentry k tj hj (hne' k hk)) (.refl _)
  · by_cases hx : k = (m.heap ref).mt.id
    · subst hx
      intro id hid hrep
      exact .inl (hset _ hsettled id hid hrep)
    · obtain ⟨hj₀, hh⟩ := hentry k tj hj hx
      have h₀ := h.owed k tj hj₀
      rw [hh]
      simpa only [Owed, reported, asked, hsil.receivedAny, hsil.askedAny] using h₀
  · rcases hk with hk | ⟨tr, htr, hfin⟩
    · rw [Wellformed.start_tjs, ExtMap.getElem?_insert] at hk
      split at hk
      · cases hk
      · exact h.settled k (.inl hk)
    · exact h.settled k (.inr ⟨tr, htr, hfin⟩)
  · rw [Wellformed.start_log, List.append_cons, endsSettled_append _ (by simp [NoEnd])]
    exact h.ends

theorem clearResource (h : Reserved dir m) (hw : Wellformed dir m) {rkey : Nat}
    (hfin : ∀ tr ∈ m.trs[rkey]?, tr.mt.state = .finished) : Reserved dir (m.clearResource rkey) := by
  unfold TaskManager.clearResource
  split
  · exact h
  · next tr htr =>
    have hentry : ∀ (k : Nat) tj, (ExtMap.eraseEach (fun r => (m.heap r).mt.id)
        (tr.validator.toList ++ tr.jobs) m.tjs)[k]? = some tj → m.tjs[k]? = some tj := by
      intro k tj hk
      rw [ExtMap.getElem?_eraseEach] at hk
      split at hk
      · cases hk
      · exact hk
    have htask : ∀ (T : Nat) tr', (m.trs.erase rkey)[T]? = some tr' → m.trs[T]? = some tr' := by
      intro T tr' hT
      rw [ExtMap.getElem?_erase] at hT
      split at hT
      · cases hT
      · exact hT
    refine ⟨fun T tr' hT hne => ?_, fun k tj hk => h.owed k tj (hentry k tj hk), fun k hk => ?_, h.ends⟩
    · exact (h.order T tr' (htask T tr' hT) hne).sub (fun k tj hj _ => ⟨hentry k tj hj, rfl⟩) (.refl _)
    · apply h.settled k
      rcases hk with hk | ⟨tr', hT, hx⟩
      · simp only [ExtMap.getElem?_eraseEach, (hw.task rkey tr htr).ids] at hk
        split at hk
        · next hmem => exact .inr ⟨tr, dir.task_of_mem hmem ▸ htr, hfin tr htr⟩
        · exact .inl hk
      · exact .inr ⟨tr', htask _ tr' hT, hx⟩

theorem reloaded (h : Reserved dir m) (hw : Wellformed dir m) {k : Nat}
    {loaded : Option (Task × Nat)} {r : Option TaskResource} (hs : Stored dir k loaded)
    (hk : m.trs[k]? = none) (hr : Reloaded m k loaded m' r) : Reserved dir m' := by
  cases hr with
  | failed => exact h
  | @jobless task rev tr hn =>
    obtain ⟨rfl, ht⟩ := hs (task, rev) rfl
    exact h.introduce hw hn ht hk [] [] (by simp) (by simp) rfl rfl (List.append_nil _).symm rfl
      (by simp [NoEnd]) (.refl _) fun _ => rfl
  | @started task rev tr ref rest hn hne hp =>
    obtain ⟨rfl, ht⟩ := hs (task, rev) rfl
    have h₁ := hw.introduce hn ht
    have hf := Frame.ready (m.introduce task.mt.id task tr) tr ref
    have hget := Wellformed.introduce_trs m task.mt.id task tr
    obtain ⟨hready, hmem, hlt⟩ := hw.readied hn ht hp
    have hin : Reserved dir (((m.introduce task.mt.id task tr).readyJob tr ref).note
        [.updateTask tr.mt.id]) :=
      h.introduce hw hn ht hk [] [.updateTask tr.mt.id] (by simp) (by simp) rfl rfl
        (List.append_nil _).symm rfl (by simp [NoEnd]) (.append _ [_] (by simp) (by simp))
        fun j => history_updateTask j _ _
    have htid : ((((m.introduce task.mt.id task tr).readyJob tr ref).note
        [.updateTask tr.mt.id]).heap ref).mt.taskId = task.mt.id := by
      have hx := congrArg (·.2.1) (hf.heap ref)
      simp only [Job.fixed] at hx
      rw [hx, h₁.ref_task hget hmem]
    refine hin.start hready hlt (fun tr' htr' _ => ?_) ?_
    · rw [htid] at htr' ⊢
      obtain rfl : tr = tr' := Option.some.inj (hget.symm.trans htr')
      exact ⟨not_queued hw hn, fun k tj hj hT => by cases (no_entry hw hk hT).symm.trans hj⟩
    · rw [htid]
      exact Option.isSome_iff_exists.mpr ⟨tr, hget⟩

end Reserved

end TaskManager

end Tarantula
