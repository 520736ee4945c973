import Tarantula.EndOfTask
import Tarantula.JobMarks
import Tarantula.Lists

/-! An iteration of `Wait` from the side of one task that is unfinished after it: the task
is left alone, comes in, has a job started or canceled, or goes on with its next job. -/

namespace Tarantula

/-- A task resource whose task has just come in. -/
structure TaskResource.Fresh (tr : TaskResource) : Prop where
  index : tr.jobIndex = 0
  canceled : tr.canceled = false
  nodup : tr.pending.Nodup

namespace TaskManager

/-- What a step does to the task `T`. `Q` holds of a report that changes the task. -/
inductive TaskStep (dir : Directory) (Q : TaskManager → Meta → Prop) (m m' : TaskManager) (T : Nat) :
    TaskResource → Prop
  | same {tr} (htr : m.trs[T]? = some tr) (hm : ∀ k, dir.task k = T → m'.marks k = m.marks k)
      (hfull : ∀ k, dir.task k = T → m.Full k → m'.Full k) (hq : m'.queue tr = m.queue tr)
      (hid : ∀ r ∈ tr.refs, m'.jobId r = m.jobId r) : TaskStep dir Q m m' T tr
  | queued {tr ref} (h₀ : m.trs[T]? = none) (hn : tr.Fresh) (hp : tr.pending[0]? = some ref)
    (hq : m'.queue tr = [ref])
      (hm : ∀ k, dir.task k = T → (m'.marks k).started = false) : TaskStep dir Q m m' T tr
  | running {tr ref} (h₀ : m.trs[T]? = none) (hn : tr.Fresh) (hp : tr.pending[0]? = some ref)
    (hq : m'.queue tr = [])
      (hT : dir.task (m'.jobId ref) = T) (href : m'.marks (m'.jobId ref) = ⟨true, false, false⟩)
      (hm : ∀ k, dir.task k = T → m'.jobId ref ≠ k → (m'.marks k).started = false) :
      TaskStep dir Q m m' T tr
  | jobless {tr} (h₀ : m.trs[T]? = none) (hn : tr.Fresh) (hp : tr.pending = []) (hq : m'.queue tr = [])
      (hm : ∀ k, dir.task k = T → (m'.marks k).started = false) : TaskStep dir Q m m' T tr
  | started {tr i ref} (htr : m.trs[T]? = some tr) (hi : m.jobs[i]? = some ref) (hr : ref ∈ tr.refs)
      (hq : m'.jobs = m.jobs.eraseIdx i) (hT : dir.task (m.jobId ref) = T)
      (href : m'.marks (m.jobId ref) = ⟨true, false, false⟩)
      (hm : ∀ k, m.jobId ref ≠ k → m'.marks k = m.marks k)
      (hfull : ∀ k, m.jobId ref ≠ k → m.Full k → m'.Full k)
      (hid : ∀ r ∈ tr.refs, m'.jobId r = m.jobId r) : TaskStep dir Q m m' T tr
  | canceled {tr tj mt} (hQ : Q m mt) (hs : mt.state = .canceled) (hT : dir.task mt.jobId = T)
      (hj : m.tjs[mt.jobId]? = some tj) (htr : m.trs[T]? = some tr) (hq : m'.queue tr = m.queue tr)
      (hm : ∀ k, m'.marks k = if mt.jobId = k then { m.marks k with canceled := true } else m.marks k)
      (hfull : ∀ k, mt.jobId ≠ k → m.Full k → m'.Full k)
      (hid : ∀ r ∈ tr.refs, m'.jobId r = m.jobId r) :
      TaskStep dir Q m m' T { tr with jobIndex := tr.pending.length, canceled := true }
  | next {tr tj mt ref} (hf : LastFinished m mt tj) (hT : dir.task mt.jobId = T)
      (htr : m.trs[T]? = some tr) (hp : tr.pending[tr.jobIndex + 1]? = some ref)
      (hq : m'.queue tr = m.queue tr ++ [ref])
      (hm : ∀ k, m'.marks k = if mt.jobId = k then { m.marks k with finished := true } else m.marks k)
      (hfull : ∀ k, m.Full k ∨ mt.jobId = k → m'.Full k)
      (hid : ∀ r ∈ tr.refs, m'.jobId r = m.jobId r) :
      TaskStep dir Q m m' T { tr with jobIndex := tr.jobIndex + 1 }

def Steps (dir : Directory) (Q : TaskManager → Meta → Prop) (m m' : TaskManager) : Prop :=
  ∀ (T : Nat) tr, m'.trs[T]? = some tr → tr.mt.state ≠ .finished → TaskStep dir Q m m' T tr

variable {dir : Directory} {Q : TaskManager → Meta → Prop} {m m' : TaskManager}

section Inversion

theorem reload_enters {k : Nat} {loaded : Option (Task × Nat)} {r : Option TaskResource}
    (h : m.reload k loaded = some (m', r)) :
    m' = m ∨ ∃ task rev tr, loaded = some (task, rev) ∧ NewTask m task tr ∧ tr.Fresh ∧
      tr.mt.state ≠ .finished ∧ (tr.pending = [] ∧ m' = m.introduce k task tr ∧ r = none ∨
        ∃ ref rest, tr.pending = ref :: rest ∧
          m' = (((m.introduce k task tr).readyJob tr ref).note [.updateTask tr.mt.id]).start ref) := by
  unfold reload at h
  split at h
  · cases h
    exact .inl rfl
  · next task rev =>
    split at h
    · cases h
    · next m₁ tr hnew =>
      obtain ⟨rfl, -, hn⟩ := newTaskResource_cases hnew
      have hindex : tr.jobIndex = 0 := by
        unfold newTaskResource at hnew
        split at hnew <;> cases hnew
        rfl
      have hnodup : (tr.validator.toList ++ tr.jobs).Nodup := hn.refs ▸ List.nodup_range'
      split at h
      · cases h
        exact .inl rfl
      · next hs =>
        dsimp only at h
        have hn' : ∀ pending, (∀ r ∈ pending, r ∈ tr.validator.toList ++ tr.jobs) →
            NewTask m task { tr with pending := pending } := fun pending hp => { hn with pending := hp }
        split at h
        · next hp =>
          cases h
          exact .inr ⟨task, rev, _, rfl, hn' _ fun r hr => (List.mem_filter.mp hr).1,
            ⟨hindex, hn.canceled, hnodup.filter _⟩, hs, .inl ⟨hp, rfl, rfl⟩⟩
        · next ref rest hp =>
          cases h
          exact .inr ⟨task, rev, _, rfl, hn' _ fun r hr => (List.mem_filter.mp hr).1,
            ⟨hindex, hn.canceled, hnodup.filter _⟩, hs, .inr ⟨ref, rest, hp, rfl⟩⟩

theorem reload_of_finished {k : Nat} {loaded : Option (Task × Nat)} (hs : Stored dir k loaded)
    (hf : ∀ p ∈ loaded, p.1.mt.state = .finished) : m.reload k loaded = some (m, none) := by
  cases loaded with
  | none => rfl
  | some p =>
    obtain ⟨-, ht⟩ := hs p rfl
    have hfin := hf p rfl
    simp [reload, newTaskResource, ht.jobs, hfin]

theorem reload_unfinished {k : Nat} {task : Task} {rev : Nat} {r : Option TaskResource}
    (hne : task.mt.state ≠ .finished) (h : m.reload k (some (task, rev)) = some (m', r)) :
    (m'.trs[k]?).isSome := by
  simp only [reload] at h
  split at h
  · cases h
  · next m₁ tr hnew =>
    obtain ⟨rfl, -, hn⟩ := newTaskResource_cases hnew
    split at h
    · next hx => exact absurd (hn.mt ▸ hx) hne
    · split at h <;> cases h <;> simp [start, note, putJob, readyJob, writeMeta, putTask]

theorem task_enters {task : Task} (h : m.wait (.task task) = some m') :
    ∃ tr ref, NewTask m task tr ∧ tr.Fresh ∧ tr.pending = tr.refs ∧ tr.pending[0]? = some ref ∧
      m' = ((m.introduce task.mt.id task tr).readyJob tr ref).schedule tr ref := by
  simp only [wait] at h
  split at h
  · cases h
  · next m₁ tr hnew =>
    obtain ⟨rfl, hp, hn⟩ := newTaskResource_cases hnew
    simp only [set] at h
    split at h
    · cases h
    · next ref href =>
      cases h
      have hnodup : (tr.validator.toList ++ tr.jobs).Nodup := hn.refs ▸ List.nodup_range'
      exact ⟨{ tr with pending := tr.pending ++ tr.validator.toList ++ tr.jobs, jobIndex := 0 }, ref,
        { hn with pending := by simp [hp] }, ⟨rfl, hn.canceled, by simpa [hp] using hnodup⟩,
        by simp [hp, TaskResource.refs], href, rfl⟩

theorem update_cases {mt : Meta} {loaded : Option (Task × Nat)} (hc : mt.state ≠ .taskClear)
    (h : m.wait (.update mt loaded) = some m') :
    ∃ m₁ r, m.find mt loaded = some (m₁, r) ∧
      (m' = m₁ ∨ ∃ tr, r = some tr ∧ tr.mt.state ≠ .finished ∧ Handled m₁ mt m') := by
  simp only [wait, hc, if_false] at h
  split at h
  · cases h
  · next m₁ hf =>
    cases h
    exact ⟨m', none, hf, .inl rfl⟩
  · next m₁ tr hf =>
    split at h
    · cases h
      exact ⟨m', some tr, hf, .inl rfl⟩
    · next he => exact ⟨m₁, some tr, hf, .inr ⟨tr, rfl, he, handle_cases h⟩⟩

theorem find_enters {mt : Meta} {loaded : Option (Task × Nat)} {r : Option TaskResource}
    (h : m.find mt loaded = some (m', r)) :
    m' = m ∨ m.trs[mt.taskId]? = none ∧ m.reload mt.taskId loaded = some (m', r) := by
  unfold find at h
  split at h
  · cases h
    exact .inl rfl
  · next hk => exact .inr ⟨hk, h⟩

end Inversion

theorem full_move {k : Nat} {mt : Meta} {tj tj' : JobResource} {h h' : List Act}
    (hm : JobMove dir k mt tj h tj' h') (hne : mt.state = .canceled → mt.jobId ≠ k)
    (hfull : tj.joinParties ≤ tj.confirmed) : tj'.joinParties ≤ tj'.confirmed := by
  cases hm with
  | quiet hsame _ =>
    rw [hsame.confirmed, show tj'.joinParties = tj.joinParties from congrArg (·.2.1) hsame.fixed]
    exact hfull
  | again => exact hfull
  | confirm => exact Nat.le_succ_of_le hfull
  | confirmLast _ _ _ _ hl => omega
  | finish => exact Nat.le_succ_of_le hfull
  | finishLast => exact Nat.le_succ_of_le hfull
  | cancel hk hst => exact absurd hk (hne hst)

theorem full_handled (hs : Sound dir m) {mt : Meta} (h : Handled m mt m') {k : Nat}
    (hne : mt.state = .canceled → mt.jobId ≠ k) (hfull : m.Full k) : m'.Full k := by
  intro tj' hj'
  obtain ⟨tj, hj, hm⟩ := handled_move hs.wellformed hs.timers h hj'
  exact full_move hm hne (hfull tj hj)

theorem jobId_of_frame (hf : Frame m m') (r : Ref) : m'.jobId r = m.jobId r :=
  congrArg Prod.fst (hf.heap r)

theorem full_of_eq {k : Nat} (h : m'.tjs[k]? = m.tjs[k]?) (hfull : m.Full k) : m'.Full k := by
  rw [Full, h]
  exact hfull

theorem jobId_start (m : TaskManager) (ref r : Ref) : (m.start ref).jobId r = m.jobId r := by
  have hheap : (m.start ref).heap = Function.update m.heap ref (Wellformed.startedJob (m.heap ref)) := rfl
  by_cases hr : r = ref
  · subst hr
    simp [jobId, hheap, Wellformed.startedJob, Job.mapMeta]
  · simp [jobId, hheap, hr]

theorem marks_introduce (m : TaskManager) (key : Nat) (task : Task) (tr : TaskResource) (ref : Ref)
    (k : Nat) : (((m.introduce key task tr).readyJob tr ref).note [.updateTask tr.mt.id]).marks k =
      m.marks k := by
  have hlog : (((m.introduce key task tr).readyJob tr ref).note [.updateTask tr.mt.id]).log =
      [.updateTask tr.mt.id] ++ m.log := rfl
  exact marks_of_silent rfl hlog (by simp) (by simp) (by simp)

theorem reload_finished {key : Nat} {loaded : Option (Task × Nat)} {r : Option TaskResource}
    (h : m.reload key loaded = some (m', r)) {k : Nat} (hk : (m'.marks k).finished = true) :
    (m.marks k).finished = true := by
  rcases reload_enters h with rfl | ⟨task, rev, tr, -, -, -, -, ⟨-, rfl, -⟩ | ⟨ref, rest, -, rfl⟩⟩
  · exact hk
  · exact hk
  · rw [marks_start, marks_introduce] at hk
    split at hk
    · cases hk
    · exact hk

namespace Steps

theorem refl (dir : Directory) (Q : TaskManager → Meta → Prop) (m : TaskManager) : Steps dir Q m m :=
  fun _ _ htr _ => .same htr (fun _ _ => rfl) (fun _ _ h => h) rfl fun _ _ => rfl

theorem handled (hs : Sound dir m) {mt : Meta} (hQ : Q m mt) (h : Handled m mt m') :
    Steps dir Q m m' := by
  intro T tr htr hne
  have hid := jobId_of_frame (Frame.handled h)
  -- the other tasks: their jobs are not the one that is reported
  have hsame : m.trs[T]? = some tr → T ≠ dir.task mt.jobId → m'.queue tr = m.queue tr →
      (∀ k, mt.jobId ≠ k → m'.marks k = m.marks k) → TaskStep dir Q m m' T tr := by
    intro htr hT hq hm
    have hother : ∀ k, dir.task k = T → mt.jobId ≠ k := by
      rintro k hk rfl
      exact hT hk.symm
    exact .same htr (fun k hk => hm k (hother k hk))
      (fun k hk => full_handled hs h fun _ => hother k hk) hq fun r _ => hid r
  have hentry : ∀ tr', m'.trs = m.trs.insert (dir.task mt.jobId) tr' →
      T = dir.task mt.jobId ∧ tr = tr' ∨ T ≠ dir.task mt.jobId ∧ m.trs[T]? = some tr := by
    intro tr' htrs
    rw [htrs, ExtMap.getElem?_insert] at htr
    split at htr
    · next he => exact .inl ⟨he.symm, (Option.some.inj htr).symm⟩
    · next he => exact .inr ⟨fun hT => he hT.symm, htr⟩
  cases handled_effect hs.wellformed h with
  | calm hst htrs hjobs hm =>
    exact .same (htrs ▸ htr) (fun k _ => hm k) (fun k _ => full_handled hs h fun hc => absurd hc hst)
      (by rw [queue, hjobs, queue]) fun r _ => hid r
  | @cancel tj tr₀ hst hj htr₀ htrs hjobs hm =>
    rcases hentry _ htrs with ⟨rfl, rfl⟩ | ⟨hT, htr⟩
    · exact .canceled hQ hst rfl hj htr₀ (by rw [queue, hjobs, queue]) hm
        (fun k hk => full_handled hs h fun _ => hk) fun r _ => hid r
    · exact hsame htr hT (by rw [queue, hjobs, queue]) fun k hk => by rw [hm, if_neg hk]
  | @next tj tr₀ ref hf htr₀ hp htrs hjobs hm hnew =>
    have hmem : ref ∈ tr₀.refs :=
      (hs.wellformed.task _ _ htr₀).pending ref (List.mem_of_getElem? hp)
    have hst : mt.state ≠ .canceled := by simp [hf.state]
    rcases hentry _ htrs with ⟨rfl, rfl⟩ | ⟨hT, htr⟩
    · refine .next hf rfl htr₀ hp ?_ hm (fun k hk => ?_) fun r _ => hid r
      · rw [queue, hjobs, List.filter_append]
        simp [queue, hmem]
      · rcases hk with hk | rfl
        · exact full_handled hs h (fun hc => absurd hc hst) hk
        · exact hnew
    · refine hsame htr hT ?_ fun k hk => by rw [hm, if_neg hk]
      have hnot : ref ∉ tr.refs := fun hr => hT (Reserved.refs_apart hs.wellformed htr htr₀ hr hmem)
      rw [queue, hjobs, List.filter_append]
      simp [queue, hnot]
  | @finish tj tr₀ hf htr₀ hp htrs hjobs hm =>
    rcases hentry _ htrs with ⟨rfl, rfl⟩ | ⟨hT, htr⟩
    · exact absurd rfl hne
    · exact hsame htr hT (by rw [queue, hjobs, queue]) fun k hk => by rw [hm, if_neg hk]
  | @stop tr₀ hst htr₀ htrs hjobs hm =>
    rcases hentry _ htrs with ⟨rfl, rfl⟩ | ⟨hT, htr⟩
    · exact absurd rfl hne
    · exact hsame htr hT (by rw [queue, hjobs, queue]) fun k hk => hm k

theorem clear (hw : Wellformed dir m) (rkey : Nat) : Steps dir Q m (m.clearResource rkey) := by
  intro T tr htr hne
  unfold clearResource at htr ⊢
  split at htr
  · exact refl dir Q m T tr htr hne
  · next tr₀ htr₀ =>
    rw [ExtMap.getElem?_erase] at htr
    split at htr
    · cases htr
    · next hT =>
      have htjs : ∀ k, dir.task k = T → (ExtMap.eraseEach (fun r => (m.heap r).mt.id)
          (tr₀.validator.toList ++ tr₀.jobs) m.tjs)[k]? = m.tjs[k]? := by
        intro k hk
        rw [ExtMap.getElem?_eraseEach, (hw.task rkey tr₀ htr₀).ids, if_neg]
        intro hmem
        exact hT ((dir.task_of_mem hmem).symm.trans hk)
      refine .same htr (fun k hk => ?_) (fun k hk => full_of_eq ?_) rfl fun _ _ => rfl
      · simp only [marks, htjs k hk]
      · simp only [htjs k hk]

theorem enter (hw : Wellformed dir m) {task : Task} {tr : TaskResource} (hn : NewTask m task tr)
    (ht : task.Numbered dir) (htrs : m'.trs = m.trs.insert task.mt.id tr)
    (hother : ∀ k, dir.task k ≠ task.mt.id → m'.marks k = m.marks k ∧ m'.tjs[k]? = m.tjs[k]?)
    (queue : List Ref) (hjobs : m'.jobs = m.jobs ++ queue) (hmem : ∀ r ∈ queue, r ∈ tr.refs)
    (hid : ∀ r < m.next, m'.jobId r = m.jobId r) (hnew : TaskStep dir Q m m' task.mt.id tr) :
    Steps dir Q m m' := by
  intro T tr' htr' _
  rw [htrs, ExtMap.getElem?_insert] at htr'
  split at htr'
  · next he =>
    cases htr'
    exact he ▸ hnew
  · next he =>
    have hne : ∀ k, dir.task k = T → dir.task k ≠ task.mt.id := fun k hk h => he (h.symm.trans hk)
    have hw' := hw.introduce hn ht
    have hin : (m.introduce task.mt.id task tr).trs[T]? = some tr' := by
      simp only [TaskManager.introduce, putTask, ExtMap.getElem?_insert, if_neg he]
      exact htr'
    have hget := Wellformed.introduce_trs m task.mt.id task tr
    have hnil : queue.filter (· ∈ tr'.refs) = [] := by
      rw [List.filter_eq_nil_iff]
      intro r hr hr'
      exact he (Reserved.refs_apart hw' hget hin (hmem r hr) (by simpa using hr'))
    refine .same htr' (fun k hk => (hother k (hne k hk)).1)
      (fun k hk => full_of_eq (hother k (hne k hk)).2) ?_ fun r hr => hid r ((hw.task T tr' htr').lt r hr)
    rw [TaskManager.queue, hjobs, List.filter_append, hnil, List.append_nil, TaskManager.queue]

theorem reload (hw : Wellformed dir m) {k : Nat} {loaded : Option (Task × Nat)}
    {r : Option TaskResource} (hs : Stored dir k loaded) (hk : m.trs[k]? = none)
    (h : m.reload k loaded = some (m', r)) : Steps dir Q m m' := by
  rcases reload_enters h with rfl | ⟨task, rev, tr, rfl, hn, hf, -, hm'⟩
  · exact refl dir Q m'
  · obtain ⟨rfl, ht⟩ := hs (task, rev) rfl
    have hnone : ∀ j, dir.task j = task.mt.id → m.tjs[j]? = none := fun j => Reserved.no_entry hw hk
    have hqueue : m.queue tr = [] := by
      rw [queue, List.filter_eq_nil_iff]
      simpa using Reserved.not_queued hw hn
    have hold : ∀ r < m.next, (m.introduce task.mt.id task tr).jobId r = m.jobId r := by
      intro r hr
      simp [jobId, TaskManager.introduce, putTask, alloc, hr]
    rcases hm' with ⟨hp, rfl, -⟩ | ⟨ref, rest, hp, rfl⟩
    · refine enter hw hn ht rfl (fun _ _ => ⟨rfl, rfl⟩) [] (List.append_nil _).symm (by simp) hold
        (.jobless hk hf hp hqueue fun j hj => ?_)
      have hx : (m.marks j).started = false := by simp [marks, hnone j hj]
      exact hx
    · have hready := Frame.ready (m.introduce task.mt.id task tr) tr ref
      have hid : ∀ r, ((((m.introduce task.mt.id task tr).readyJob tr ref).note
          [.updateTask tr.mt.id]).start ref).jobId r = (m.introduce task.mt.id task tr).jobId r :=
        fun r => (jobId_start _ ref r).trans (jobId_of_frame hready r)
      have hmem := (hw.readied hn ht hp).2.1
      have hT : dir.task ((m.introduce task.mt.id task tr).jobId ref) = task.mt.id :=
        dir.task_of_mem (Reserved.ref_ids (hw.introduce hn ht) (Wellformed.introduce_trs m _ task tr) hmem).1
      have hmarks : ∀ j, ((((m.introduce task.mt.id task tr).readyJob tr ref).note
          [.updateTask tr.mt.id]).start ref).marks j =
          if (m.introduce task.mt.id task tr).jobId ref = j then ⟨true, false, false⟩ else m.marks j := by
        intro j
        rw [marks_start, jobId_of_frame hready, marks_introduce]
      refine enter hw hn ht rfl (fun j hj => ⟨?_, ?_⟩) [] (List.append_nil _).symm (by simp)
        (fun r hr => (hid r).trans (hold r hr)) (.running hk hf
          (by rw [hp]; rfl) hqueue ?_ ?_ fun j hj hne => ?_)
      · rw [hmarks, if_neg]
        rintro rfl
        exact hj hT
      · rw [Wellformed.start_tjs, ExtMap.getElem?_insert, if_neg]
        · rfl
        · intro he
          exact hj (he ▸ (congrArg dir.task (jobId_of_frame hready ref)).trans hT)
      · rw [hid]
        exact hT
      · rw [hid, hmarks, if_pos rfl]
      · rw [hmarks, if_neg fun he => hne ((hid ref).trans he)]
        simp [marks, hnone j hj]

theorem task (hw : Wellformed dir m) {t : Task} (ht : t.Numbered dir) (hk : m.trs[t.mt.id]? = none)
    (h : m.wait (.task t) = some m') : Steps dir Q m m' := by
  obtain ⟨tr, ref, hn, hf, -, hp, rfl⟩ := task_enters h
  have hready := Frame.readyJob (m.introduce t.mt.id t tr) tr ref
  have hmem : ref ∈ tr.refs := hn.pending ref (List.mem_of_getElem? hp)
  have hnote : (((m.introduce t.mt.id t tr).readyJob tr ref).schedule tr ref).log =
      [.updateTask tr.mt.id] ++ m.log := rfl
  have hmarks : ∀ k, (((m.introduce t.mt.id t tr).readyJob tr ref).schedule tr ref).marks k =
      m.marks k := fun k => marks_of_silent rfl hnote (by simp) (by simp) (by simp)
  refine enter hw hn ht rfl (fun k _ => ⟨hmarks k, rfl⟩) [ref] rfl (by simpa using hmem) (fun r hr => ?_)
    (.queued hk hf hp ?_ fun k hk' => ?_)
  · refine (jobId_of_frame hready r).trans ?_
    simp [jobId, TaskManager.introduce, putTask, alloc, hr]
  · have hnil : m.jobs.filter (· ∈ tr.refs) = [] := by
      rw [List.filter_eq_nil_iff]
      simpa using Reserved.not_queued hw hn
    have hjobs : (((m.introduce t.mt.id t tr).readyJob tr ref).schedule tr ref).jobs =
        m.jobs ++ [ref] := rfl
    rw [queue, hjobs, List.filter_append, hnil]
    simp [hmem]
  · rw [hmarks]
    simp [marks, Reserved.no_entry hw hk hk']

theorem job (hw : Wellformed dir m) {i : Nat} {ref : Ref} {tr : TaskResource}
    (hi : m.jobs[i]? = some ref) (ht : m.trs[(m.heap ref).mt.taskId]? = some tr) (hr : ref ∈ tr.refs) :
    Steps dir Q m ({ m with jobs := m.jobs.eraseIdx i }.start ref) := by
  intro T tr' htr' _
  have hT : dir.task (m.jobId ref) = (m.heap ref).mt.taskId :=
    dir.task_of_mem (Reserved.ref_ids hw ht hr).1
  have hmarks : ∀ k, ({ m with jobs := m.jobs.eraseIdx i }.start ref).marks k =
      if m.jobId ref = k then ⟨true, false, false⟩ else m.marks k := marks_start _ ref
  have hfull : ∀ k, m.jobId ref ≠ k → m.Full k → ({ m with jobs := m.jobs.eraseIdx i }.start ref).Full k := by
    intro k hk
    refine full_of_eq ?_
    rw [Wellformed.start_tjs, ExtMap.getElem?_insert]
    exact if_neg hk
  by_cases he : T = (m.heap ref).mt.taskId
  · subst he
    obtain rfl : tr = tr' := Option.some.inj (ht.symm.trans htr')
    exact .started ht hi hr rfl hT (by rw [hmarks, if_pos rfl]) (fun k hk => by rw [hmarks, if_neg hk])
      hfull fun r _ => jobId_start _ ref r
  · have hne : ∀ k, dir.task k = T → m.jobId ref ≠ k := by
      rintro k hk rfl
      exact he (hk.symm.trans hT)
    have hnot : ref ∉ tr'.refs := fun hr' => he (Reserved.refs_apart hw htr' ht hr' hr)
    refine .same htr' (fun k hk => by rw [hmarks, if_neg (hne k hk)]) (fun k hk => hfull k (hne k hk)) ?_
      fun r _ => jobId_start _ ref r
    exact filter_eraseIdx hi (by simpa using hnot)

end Steps

/-- The small steps of the coordinator. `Q` holds of every report that is handled. -/
inductive Micro (dir : Directory) (Q : TaskManager → Meta → Prop) (m : TaskManager) : TaskManager → Prop
  | idle : Micro dir Q m m
  | reload {k loaded m' r} (hs : Stored dir k loaded) (hk : m.trs[k]? = none)
      (h : m.reload k loaded = some (m', r)) : Micro dir Q m m'
  | task {t m'} (ht : t.Numbered dir) (hk : m.trs[t.mt.id]? = none) (h : m.wait (.task t) = some m') :
      Micro dir Q m m'
  | job {i ref tr} (hi : m.jobs[i]? = some ref) (ht : m.trs[(m.heap ref).mt.taskId]? = some tr)
      (hr : ref ∈ tr.refs) : Micro dir Q m ({ m with jobs := m.jobs.eraseIdx i }.start ref)
  | clear (rkey : Nat) : Micro dir Q m (m.clearResource rkey)
  | handled {mt m'} (hQ : Q m mt) (h : Handled m mt m') : Micro dir Q m m'

theorem Steps.of_micro (hs : Sound dir m) (h : Micro dir Q m m') : Steps dir Q m m' := by
  have hw := hs.wellformed
  cases h with
  | idle => exact .refl dir Q m
  | reload hst hk h => exact .reload hw hst hk h
  | task ht hk h => exact .task hw ht hk h
  | job hi ht hr => exact .job hw hi ht hr
  | clear rkey => exact .clear hw rkey
  | handled hQ h => exact .handled hs hQ h

theorem Micro.find {mt : Meta} {loaded : Option (Task × Nat)} {r : Option TaskResource}
    (hs : Stored dir mt.taskId loaded) (h : m.find mt loaded = some (m', r)) : Micro dir Q m m' := by
  rcases find_enters h with rfl | ⟨hk, hr⟩
  · exact .idle
  · exact .reload hs hk hr

/-- `m₁` is `m`, or what `find` makes of it for the update `e`. -/
def FoundFor (e : Event) (m m₁ : TaskManager) : Prop :=
  m₁ = m ∨ ∃ mt loaded r, e = .update mt loaded ∧ m.find mt loaded = some (m₁, r)

/-- One iteration is a reload, if any, followed by one step. -/
theorem wait_micro (hs : Sound dir m) {e : Event} (hg : e.Genuine dir m) (hQ : OnHandled Q m e)
    (h : m.wait e = some m') :
    ∃ m₁, FoundFor e m m₁ ∧ Sound dir m₁ ∧ Micro dir Q m m₁ ∧ Micro dir Q m₁ m' := by
  have hlast : Micro dir Q m m' →
      ∃ m₁, FoundFor e m m₁ ∧ Sound dir m₁ ∧ Micro dir Q m m₁ ∧ Micro dir Q m₁ m' :=
    fun hm => ⟨m, .inl rfl, hs, .idle, hm⟩
  cases e with
  | recovery k loaded =>
    simp only [wait] at h
    split at h
    · cases h
      exact hlast .idle
    · next hk =>
      obtain ⟨⟨m₁, r⟩, hr, rfl⟩ := Option.map_eq_some_iff.mp h
      exact hlast (.reload hg hk hr)
  | task t => exact hlast (.task hg.1 hg.2 h)
  | job i =>
    cases wait_cases h with
    | idle => exact hlast .idle
    | job hi ht => exact hlast (.job hi ht (hg _ hi _ ht))
  | update mt loaded =>
    by_cases hc : mt.state = .taskClear
    · simp only [wait, hc, if_true] at h
      cases h
      exact hlast (.clear mt.id)
    · obtain ⟨m₁, r, hf, hm'⟩ := update_cases hc h
      rcases hm' with rfl | ⟨tr, rfl, hne, hh⟩
      · exact hlast (.find hg.1 hf)
      · exact ⟨m₁, .inr ⟨mt, loaded, some tr, rfl, hf⟩, hs.find hg.1 hf, .find hg.1 hf,
          .handled (hQ.apply hc hf hne) hh⟩

/-- `P` holds of every unfinished task. -/
def Taskwise (P : TaskManager → Nat → TaskResource → Prop) (m : TaskManager) : Prop :=
  ∀ (T : Nat) tr, m.trs[T]? = some tr → tr.mt.state ≠ .finished → P m T tr

section Taskwise

variable {P : TaskManager → Nat → TaskResource → Prop}

theorem Taskwise.micro (h : Taskwise P m) (hs : Sound dir m)
    (hP : ∀ m m' T tr, Wellformed dir m → tr.mt.state ≠ .finished → TaskStep dir Q m m' T tr →
      (∀ tr₀, m.trs[T]? = some tr₀ → tr₀.mt.state ≠ .finished → P m T tr₀) → P m' T tr)
    (hm : Micro dir Q m m') : Taskwise P m' :=
  fun T tr htr hne => hP m m' T tr hs.wellformed hne (Steps.of_micro hs hm T tr htr hne) (h T)

/-- The induction over runs, task by task. -/
theorem Taskwise.wait (h : Taskwise P m) (hs : Sound dir m) {e : Event} (hg : e.Genuine dir m)
    (hQ : OnHandled Q m e)
    (hP : ∀ m m' T tr, Wellformed dir m → tr.mt.state ≠ .finished → TaskStep dir Q m m' T tr →
      (∀ tr₀, m.trs[T]? = some tr₀ → tr₀.mt.state ≠ .finished → P m T tr₀) → P m' T tr)
    (hw : m.wait e = some m') : Taskwise P m' := by
  obtain ⟨m₁, -, hs₁, h₁, h₂⟩ := wait_micro hs hg hQ hw
  exact (h.micro hs hP h₁).micro hs₁ hP h₂

end Taskwise

end TaskManager

end Tarantula
