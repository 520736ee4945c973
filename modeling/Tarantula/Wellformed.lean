import Tarantula.Frame

/-! Every reachable coordinator holds only job objects numbered by the directory,
and its maps refer to each other consistently. -/

namespace Tarantula.TaskManager

structure TaskEntry (dir : Directory) (m : TaskManager) (k : Nat) (tr : TaskResource) : Prop where
  id : tr.mt.id = k
  lt : ∀ r ∈ tr.validator.toList ++ tr.jobs, r < m.next
  ids : (tr.validator.toList ++ tr.jobs).map (fun r => (m.heap r).mt.id) = dir.jobs k
  pending : ∀ r ∈ tr.pending, r ∈ tr.validator.toList ++ tr.jobs

structure JobEntry (dir : Directory) (m : TaskManager) (k : Nat) (tj : JobResource) : Prop where
  lt : tj.resource < m.next
  id : (m.heap tj.resource).mt.id = k
  parties : tj.joinParties = (dir.txs k).length
  mem : ∀ id : Nat, (tj.joining[id]?).isSome ↔ id ∈ dir.txs k
  index : ∀ (id : Nat) t, tj.joining[id]? = some t → (dir.txs k)[t.resource]? = some id
  task : (m.trs[dir.task k]?).isSome

structure Wellformed (dir : Directory) (m : TaskManager) : Prop where
  numbered : ∀ r < m.next, (m.heap r).Numbered dir
  queued : ∀ r ∈ m.jobs, r < m.next
  task : ∀ (k : Nat) tr, m.trs[k]? = some tr → TaskEntry dir m k tr
  job : ∀ (k : Nat) tj, m.tjs[k]? = some tj → JobEntry dir m k tj

namespace Wellformed

variable {dir : Directory} {m m' : TaskManager}

theorem empty : Wellformed dir TaskManager.empty :=
  ⟨fun r h => absurd h (Nat.not_lt_zero r), by simp [TaskManager.empty],
    fun k tr h => by simp [TaskManager.empty] at h, fun k tj h => by simp [TaskManager.empty] at h⟩

theorem taskId (h : Wellformed dir m) {k : Nat} {tj : JobResource} (hk : m.tjs[k]? = some tj) :
    (m.heap tj.resource).mt.taskId = dir.task k := by
  have hj := h.job k tj hk
  have hm := (h.numbered _ hj.lt).mem
  rw [hj.id] at hm
  exact (dir.task_of_mem hm).symm

theorem mem_jobs (h : Wellformed dir m) {k : Nat} {tj : JobResource} (hk : m.tjs[k]? = some tj) :
    k ∈ dir.jobs (dir.task k) := by
  have hj := h.job k tj hk
  have hm := (h.numbered _ hj.lt).mem
  rwa [hj.id, h.taskId hk] at hm

theorem ids (h : Wellformed dir m) {k : Nat} {tj : JobResource} (hk : m.tjs[k]? = some tj) :
    (m.heap tj.resource).ids = dir.txs k := by
  have hj := h.job k tj hk
  rw [(h.numbered _ hj.lt).ids, hj.id]

theorem jobId (h : Wellformed dir m) {k : Nat} {tj : JobResource} (hk : m.tjs[k]? = some tj) :
    ∀ tc ∈ (m.heap tj.resource).transactions, tc.mt.jobId = k := by
  have hj := h.job k tj hk
  intro tc htc
  rw [(h.numbered _ hj.lt).jobId tc htc, hj.id]

theorem of_frame (h : Wellformed dir m) (hf : Frame m m') : Wellformed dir m' := by
  have hid : ∀ r, (m'.heap r).mt.id = (m.heap r).mt.id := fun r => congrArg Prod.fst (hf.heap r)
  have htask : ∀ (k : Nat) tr, m'.trs[k]? = some tr → TaskEntry dir m' k tr := by
    intro k tr hk
    have he := hf.trs k
    rw [hk] at he
    obtain ⟨tr₀, hk₀, hx⟩ := Option.map_eq_some_iff.mp he.symm
    simp only [TaskResource.fixed, Prod.mk.injEq] at hx
    obtain ⟨hi, hv, hj, hp⟩ := hx
    have h₀ := h.task k tr₀ hk₀
    refine ⟨hi ▸ h₀.id, ?_, ?_, ?_⟩
    · rw [← hv, ← hj, hf.next]
      exact h₀.lt
    · simp only [← hv, ← hj, hid]
      exact h₀.ids
    · rw [← hv, ← hj, ← hp]
      exact h₀.pending
  refine ⟨fun r hr => ?_, fun r hr => ?_, htask, fun k tj hk => ?_⟩
  · exact Job.numbered_of_fixed (hf.heap r) (h.numbered r (hf.next ▸ hr))
  · rw [hf.next]
    rcases hf.jobs r hr with hr | ⟨k, tr, hk, hp⟩
    · exact h.queued r hr
    · exact (h.task k tr hk).lt r ((h.task k tr hk).pending r hp)
  · have he := hf.tjs k
    rw [hk] at he
    obtain ⟨tj₀, hk₀, hx⟩ := Option.map_eq_some_iff.mp he.symm
    simp only [JobResource.fixed, Prod.mk.injEq] at hx
    obtain ⟨hr, hp, hm⟩ := hx
    have h₀ := h.job k tj₀ hk₀
    have hm' : ∀ id : Nat, (tj₀.joining[id]?).map (·.resource) = (tj.joining[id]?).map (·.resource) :=
      congrFun hm
    refine ⟨hr ▸ hf.next ▸ h₀.lt, by rw [hid, ← hr]; exact h₀.id, hp ▸ h₀.parties, ?_, ?_, ?_⟩
    · intro id
      rw [← h₀.mem id, ← Option.isSome_map, ← hm' id, Option.isSome_map]
    · intro id t ht
      have hx := hm' id
      rw [ht] at hx
      obtain ⟨t₀, ht₀, hr₀⟩ : ∃ t₀, tj₀.joining[id]? = some t₀ ∧ t₀.resource = t.resource :=
        Option.map_eq_some_iff.mp hx
      exact hr₀ ▸ h₀.index id t₀ ht₀
    · rw [← Option.isSome_map, hf.trs, Option.isSome_map]
      exact h₀.task

theorem alloc_heap (m : TaskManager) {jobs : List Job} {i : Nat} (hi : i < jobs.length) :
    (m.alloc jobs).heap (m.next + i) = jobs[i] := by
  have hn : ¬ m.next + i < m.next := Nat.not_lt.mpr (Nat.le_add_right _ _)
  simp only [alloc, hn, if_false, Nat.add_sub_cancel_left]
  simp [hi]

theorem introduce_trs (m : TaskManager) (k : Nat) (task : Task) (tr : TaskResource) :
    (m.introduce k task tr).trs[k]? = some tr := by
  simp [TaskManager.introduce, putTask]

theorem introduce (h : Wellformed dir m) {task : Task} {tr : TaskResource}
    (hn : NewTask m task tr) (ht : task.Numbered dir) :
    Wellformed dir (m.introduce task.mt.id task tr) := by
  have hheap : ∀ r < m.next, (m.introduce task.mt.id task tr).heap r = m.heap r := by
    intro r hr
    simp [TaskManager.introduce, putTask, alloc, hr]
  have hle : m.next ≤ (m.introduce task.mt.id task tr).next := Nat.le_add_right _ _
  have htask : ∀ (k : Nat) tr', (m.introduce task.mt.id task tr).trs[k]? = some tr' →
      TaskEntry dir (m.introduce task.mt.id task tr) k tr' := by
    intro k tr' hk
    simp only [TaskManager.introduce, putTask, ExtMap.getElem?_insert] at hk
    split at hk
    · next hkey =>
      cases hk
      refine ⟨by rw [hn.mt, hkey], ?_, ?_, hn.pending⟩
      · rw [hn.refs]
        intro r hr
        obtain ⟨i, hi, rfl⟩ := List.mem_range'.mp hr
        simpa [TaskManager.introduce, putTask, alloc] using hi
      · rw [← hkey, ← ht.ids, hn.refs]
        apply List.ext_getElem
        · simp
        · intro i hi hi'
          have hl : i < task.allJobs.length := by simpa using hi'
          simp only [List.getElem_map, List.getElem_range', Nat.one_mul]
          exact congrArg (·.mt.id) (alloc_heap m hl)
    · have h₀ := h.task k tr' hk
      refine ⟨h₀.id, fun r hr => Nat.lt_of_lt_of_le (h₀.lt r hr) hle, ?_, h₀.pending⟩
      rw [← h₀.ids]
      exact List.map_congr_left fun r hr => congrArg (·.mt.id) (hheap r (h₀.lt r hr))
  refine ⟨fun r hr => ?_, fun r hr => Nat.lt_of_lt_of_le (h.queued r hr) hle, htask, fun k tj hk => ?_⟩
  · by_cases hlt : r < m.next
    · rw [hheap r hlt]
      exact h.numbered r hlt
    · obtain ⟨i, rfl⟩ := Nat.exists_eq_add_of_le (Nat.le_of_not_lt hlt)
      have hi : i < task.allJobs.length := Nat.lt_of_add_lt_add_left hr
      have he : (m.introduce task.mt.id task tr).heap (m.next + i) = _ := alloc_heap m hi
      rw [he]
      exact ht.job _ (List.getElem_mem hi)
  · have h₀ := h.job k tj hk
    refine ⟨Nat.lt_of_lt_of_le h₀.lt hle, by rw [hheap _ h₀.lt]; exact h₀.id, h₀.parties,
      h₀.mem, h₀.index, ?_⟩
    simp only [TaskManager.introduce, putTask, ExtMap.getElem?_insert]
    split
    · rfl
    · exact h₀.task

theorem joinAll_entry (tcs : List Transaction) (id : Nat) :
    (∃ n, (tcs.map (·.mt.id))[n]? = some id ∧
      (JobResource.joinAll tcs)[id]? = some ⟨n, 0, 0, false, 0⟩) ∨
      (id ∉ tcs.map (·.mt.id) ∧ (JobResource.joinAll tcs)[id]? = none) := by
  rcases ExtMap.getElem?_insertEach (·.mt.id) (fun i _ => (⟨i, 0, 0, false, 0⟩ : TransactionResource))
    tcs 0 ∅ id with ⟨n, tc, hn, hk, he⟩ | ⟨hk, he⟩
  · exact .inl ⟨n, by simp [hn, hk], by simpa [JobResource.joinAll] using he⟩
  · exact .inr ⟨hk, by simpa [JobResource.joinAll] using he⟩

def startedJob (job : Job) : Job :=
  job.mapMeta fun mt => { mt with state := .reserving, ringPrefix := job.mt.ringPrefix }

def startedResource (ref : Ref) (job : Job) : JobResource :=
  { resource := ref
    joining := JobResource.joinAll (startedJob job).transactions
    joinParties := (startedJob job).transactions.length
    confirmed := 0
    canceled := false }

theorem startedJob_numbered {dir : Directory} {job : Job} (h : job.Numbered dir) :
    (startedJob job).Numbered dir :=
  Job.numbered_of_fixed (Job.mapMeta_fixed _ fun _ => ⟨rfl, rfl⟩) h

theorem start_tjs (m : TaskManager) (ref : Ref) :
    (m.start ref).tjs = m.tjs.insert (m.heap ref).mt.id (startedResource ref (m.heap ref)) := rfl

theorem start_tms (m : TaskManager) (ref : Ref) : (m.start ref).tms =
    armAll (.reserve ref) (startedJob (m.heap ref)).transactions
      (m.tms.insert (m.heap ref).mt.id ⟨0, 0, none⟩) := rfl

theorem start_log (m : TaskManager) (ref : Ref) : (m.start ref).log =
    ((startedJob (m.heap ref)).transactions.map fun tc => Act.askReserve tc.mt).reverse ++
      .started (m.heap ref).mt.id :: m.log := by
  simp [TaskManager.start, note, putJob, startedJob, Job.mapMeta]

theorem start (h : Wellformed dir m) {ref : Ref} (hr : ref < m.next)
    (ht : (m.trs[(m.heap ref).mt.taskId]?).isSome) : Wellformed dir (m.start ref) := by
  -- the job object is rewritten in place, then one entry of `tjs` is new
  have hw : Wellformed dir { m with heap := Function.update m.heap ref (startedJob (m.heap ref)) } :=
    h.of_frame (.update m _ (Job.mapMeta_fixed _ fun _ => ⟨rfl, rfl⟩))
  refine ⟨hw.numbered, hw.queued, fun k tr hk => ?_, fun k tj hk => ?_⟩
  · have h₀ := hw.task k tr hk
    exact ⟨h₀.id, h₀.lt, h₀.ids, h₀.pending⟩
  · rw [start_tjs, ExtMap.getElem?_insert] at hk
    split at hk
    · next hkey =>
      cases hk
      have hnum := h.numbered ref hr
      have hids : (startedJob (m.heap ref)).transactions.map (·.mt.id) = dir.txs k := by
        rw [← hkey]
        exact (startedJob_numbered hnum).ids
      refine ⟨hr, ?_, ?_, fun id => ?_, fun id t hid => ?_, ?_⟩
      · rw [← hkey]
        exact congrArg Prod.fst ((Frame.update m (startedJob (m.heap ref))
          (Job.mapMeta_fixed _ fun _ => ⟨rfl, rfl⟩)).heap ref)
      · simp [startedResource, ← hids]
      · rw [← hids]
        rcases joinAll_entry (startedJob (m.heap ref)).transactions id with ⟨n, hn, he⟩ | ⟨hn, he⟩
        · simp only [startedResource, he, Option.isSome_some, true_iff]
          exact List.mem_of_getElem? hn
        · simp only [startedResource, he, hn, Option.isSome_none, Bool.false_eq_true]
      · rw [← hids]
        rcases joinAll_entry (startedJob (m.heap ref)).transactions id with ⟨n, hn, he⟩ | ⟨hn, he⟩
        · simp only [startedResource, he, Option.some.injEq] at hid
          rw [← hid]
          exact hn
        · simp [startedResource, he] at hid
      · rw [← hkey, dir.task_of_mem hnum.mem]
        exact ht
    · have h₀ := hw.job k tj hk
      exact ⟨h₀.lt, h₀.id, h₀.parties, h₀.mem, h₀.index, h₀.task⟩

theorem clearResource (h : Wellformed dir m) (rkey : Nat) :
    Wellformed dir (m.clearResource rkey) := by
  unfold TaskManager.clearResource
  split
  · exact h
  · next tr htr =>
    refine ⟨h.numbered, h.queued, fun k tr' hk => ?_, fun k tj hk => ?_⟩
    · simp only [ExtMap.getElem?_erase] at hk
      split at hk
      · cases hk
      · have h₀ := h.task k tr' hk
        exact ⟨h₀.id, h₀.lt, h₀.ids, h₀.pending⟩
    · simp only [ExtMap.getElem?_eraseEach, (h.task rkey tr htr).ids] at hk
      split at hk
      · cases hk
      · next hnot =>
        have h₀ := h.job k tj hk
        refine ⟨h₀.lt, h₀.id, h₀.parties, h₀.mem, h₀.index, ?_⟩
        have hne : rkey ≠ dir.task k := fun he => hnot (he ▸ h.mem_jobs hk)
        simp only [ExtMap.getElem?_erase, hne, if_false]
        exact h₀.task

theorem ref_task (h : Wellformed dir m) {k : Nat} {tr : TaskResource} (hk : m.trs[k]? = some tr) {r : Ref}
    (hr : r ∈ tr.validator.toList ++ tr.jobs) : (m.heap r).mt.taskId = k := by
  have hent := h.task k tr hk
  have hid : (m.heap r).mt.id ∈ dir.jobs k := by
    rw [← hent.ids]
    exact List.mem_map_of_mem hr
  rw [← dir.task_of_mem (h.numbered r (hent.lt r hr)).mem, dir.task_of_mem hid]

theorem readied (h : Wellformed dir m) {task : Task} {tr : TaskResource} {ref : Ref} {rest : List Ref}
    (hn : NewTask m task tr) (ht : task.Numbered dir) (hp : tr.pending = ref :: rest) :
    Wellformed dir (((m.introduce task.mt.id task tr).readyJob tr ref).note [.updateTask tr.mt.id]) ∧
      ref ∈ tr.validator.toList ++ tr.jobs ∧ ref < (m.introduce task.mt.id task tr).next := by
  have h₁ := h.introduce hn ht
  have hent := h₁.task task.mt.id tr (introduce_trs m task.mt.id task tr)
  have hmem := hent.pending ref (hp ▸ List.mem_cons_self ..)
  exact ⟨h₁.of_frame (.ready _ tr ref), hmem, hent.lt ref hmem⟩

theorem reloaded (h : Wellformed dir m) {k : Nat} {loaded : Option (Task × Nat)}
    {r : Option TaskResource} (hs : Stored dir k loaded) (hr : Reloaded m k loaded m' r) :
    Wellformed dir m' := by
  cases hr with
  | failed => exact h
  | @jobless task rev tr hn =>
    obtain ⟨rfl, ht⟩ := hs (task, rev) rfl
    exact h.introduce hn ht
  | @started task rev tr ref rest hn _ hp =>
    obtain ⟨rfl, ht⟩ := hs (task, rev) rfl
    have h₁ := h.introduce hn ht
    have hf := Frame.ready (m.introduce task.mt.id task tr) tr ref
    have hget := introduce_trs m task.mt.id task tr
    obtain ⟨hready, hmem, hlt⟩ := h.readied hn ht hp
    refine hready.start hlt ?_
    have htid := congrArg (·.2.1) (hf.heap ref)
    simp only [Job.fixed] at htid
    rw [htid, h₁.ref_task hget hmem, ← Option.isSome_map, hf.trs, hget]
    rfl

theorem find (h : Wellformed dir m) {mt : Meta} {loaded : Option (Task × Nat)}
    {r : Option TaskResource} (hs : Stored dir mt.taskId loaded)
    (hf : m.find mt loaded = some (m', r)) : Wellformed dir m' := by
  rcases find_cases hf with ⟨rfl, -⟩ | ⟨-, hr⟩
  · exact h
  · exact h.reloaded hs hr

theorem waited (h : Wellformed dir m) {e : Event} (he : e.Numbered dir) (hw : Waited m e m') :
    Wellformed dir m' := by
  cases hw with
  | idle => exact h
  | recovered _ hr => exact h.reloaded he hr
  | @task task tr ref hn hp _ =>
    have h₁ := h.introduce hn he
    refine h₁.of_frame ((Frame.readyJob _ tr ref).trans
      (.schedule task.mt.id tr ?_ (List.mem_of_getElem? hp)))
    simp [TaskManager.introduce, putTask, readyJob, writeMeta]
  | @job i ref tr hi ht =>
    exact (h.of_frame (.dequeue m i)).start (h.queued ref (List.mem_of_getElem? hi)) (by simp [ht])
  | clear _ => exact h.clearResource _
  | unloaded _ hr => exact h.reloaded he hr
  | handled _ hf _ hh => exact (h.find he hf).of_frame (.handled hh)

end Wellformed

end Tarantula.TaskManager
