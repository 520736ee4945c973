import Mathlib.Data.List.Nodup
import Tarantula.TaskSteps

/-! A job object is started at most once. It waits in the list of its task, is queued when the job
before it has finished, and leaves the queue when it is received; a task that is reloaded has
other objects. Nothing is assumed of the ids. -/

namespace Tarantula

def TaskResource.waiting (tr : TaskResource) : List Ref := tr.pending.drop (tr.jobIndex + 1)

namespace TaskManager

variable {m m' : TaskManager} {ref : Ref}

structure Allocated (m : TaskManager) : Prop where
  queued : ∀ r ∈ m.jobs, r < m.next
  pending : ∀ (k : Nat) tr, m.trs[k]? = some tr → ∀ r ∈ tr.pending, r < m.next

/-- The job object is there and is neither queued nor waiting. -/
structure Gone (m : TaskManager) (ref : Ref) : Prop where
  lt : ref < m.next
  queued : ref ∉ m.jobs
  waiting : ∀ (k : Nat) tr, m.trs[k]? = some tr → ref ∉ tr.waiting

/-- A job object is queued or waits at one place at most. -/
structure Lined (m : TaskManager) : Prop extends Allocated m where
  nodup : m.jobs.Nodup
  waiting : ∀ (k : Nat) tr, m.trs[k]? = some tr → tr.waiting.Nodup ∧ ∀ r ∈ tr.waiting, r ∉ m.jobs
  apart : ∀ (k k' : Nat) tr tr', k ≠ k' → m.trs[k]? = some tr → m.trs[k']? = some tr' →
    ∀ r ∈ tr.waiting, r ∉ tr'.waiting

/-- No object comes in, and the tasks only go on in their lists. -/
structure Shrunk (m m' : TaskManager) : Prop where
  next : m'.next = m.next
  jobs : m'.jobs = m.jobs
  trs : ∀ (k : Nat) tr', m'.trs[k]? = some tr' →
    ∃ tr, m.trs[k]? = some tr ∧ tr'.pending = tr.pending ∧ tr'.waiting.Sublist tr.waiting

theorem waiting_lt (h : Allocated m) {k : Nat} {tr : TaskResource} (hk : m.trs[k]? = some tr) :
    ∀ r ∈ tr.waiting, r < m.next :=
  fun r hr => h.pending k tr hk r (List.mem_of_mem_drop hr)

namespace Shrunk

theorem of_eq (hn : m'.next = m.next) (hj : m'.jobs = m.jobs) (ht : m'.trs = m.trs) : Shrunk m m' :=
  ⟨hn, hj, fun _ tr' hk => ⟨tr', ht ▸ hk, rfl, List.Sublist.refl _⟩⟩

theorem start (m : TaskManager) (ref : Ref) : Shrunk m (m.start ref) := of_eq rfl rfl rfl

theorem putTask {k : Nat} {tr : TaskResource} (tr' : TaskResource) (hk : m.trs[k]? = some tr)
    (hp : tr'.pending = tr.pending) (hs : tr'.waiting.Sublist tr.waiting) (hn : m'.next = m.next)
    (hj : m'.jobs = m.jobs) (ht : m'.trs = m.trs.insert k tr') : Shrunk m m' := by
  refine ⟨hn, hj, fun k' tr₁ hk' => ?_⟩
  rw [ht, ExtMap.getElem?_insert] at hk'
  split at hk'
  · next hkk =>
    cases hk'
    exact ⟨tr, hkk ▸ hk, hp, hs⟩
  · exact ⟨tr₁, hk', rfl, List.Sublist.refl _⟩

theorem gone (h : Shrunk m m') (hg : Gone m ref) : Gone m' ref := by
  refine ⟨h.next ▸ hg.lt, h.jobs ▸ hg.queued, fun k tr' hk hmem => ?_⟩
  obtain ⟨tr, htr, -, hs⟩ := h.trs k tr' hk
  exact hg.waiting k tr htr (hs.subset hmem)

theorem lined (h : Shrunk m m') (hl : Lined m) : Lined m' := by
  refine ⟨⟨?_, fun k tr' hk => ?_⟩, h.jobs ▸ hl.nodup, fun k tr' hk => ?_,
    fun k k' tr₁ tr₁' hne hk hk' r hr => ?_⟩
  · rw [h.jobs, h.next]
    exact hl.queued
  · obtain ⟨tr, htr, hp, -⟩ := h.trs k tr' hk
    rw [hp, h.next]
    exact hl.pending k tr htr
  · obtain ⟨tr, htr, -, hsub⟩ := h.trs k tr' hk
    obtain ⟨hnodup, hnot⟩ := hl.waiting k tr htr
    rw [h.jobs]
    exact ⟨hnodup.sublist hsub, fun r hr => hnot r (hsub.subset hr)⟩
  · obtain ⟨tr, htr, -, hs⟩ := h.trs k tr₁ hk
    obtain ⟨tr', htr', -, hs'⟩ := h.trs k' tr₁' hk'
    exact fun hr' => hl.apart k k' tr tr' hne htr htr' r (hs.subset hr) (hs'.subset hr')

end Shrunk

theorem Lined.dequeue (hl : Lined m) (i : Nat) : Lined { m with jobs := m.jobs.eraseIdx i } := by
  refine ⟨⟨fun r hr => hl.queued r (List.mem_of_mem_eraseIdx hr), hl.pending⟩,
    hl.nodup.sublist (List.eraseIdx_sublist ..), fun k tr hk => ?_, hl.apart⟩
  obtain ⟨hnodup, hnot⟩ := hl.waiting k tr hk
  exact ⟨hnodup, fun r hr hmem => hnot r hr (List.mem_of_mem_eraseIdx hmem)⟩

theorem Lined.gone_dequeue (hl : Lined m) {i : Nat} (hi : m.jobs[i]? = some ref) :
    Gone { m with jobs := m.jobs.eraseIdx i } ref := by
  have hmem := List.mem_of_getElem? hi
  refine ⟨hl.queued ref hmem, fun herased => ?_, fun k tr hk hr => (hl.waiting k tr hk).2 ref hr hmem⟩
  obtain ⟨j, hne, hj⟩ := List.mem_eraseIdx_iff_getElem?.mp herased
  have hlt := (List.getElem?_eq_some_iff.mp hi).1
  exact hne ((List.getElem?_inj hlt hl.nodup).mp (hi.trans hj.symm)).symm

theorem Lined.enqueue (hl : Lined m) (hg : Gone m ref) (hn : m'.next = m.next) (ht : m'.trs = m.trs)
    (hj : m'.jobs = m.jobs ++ [ref]) : Lined m' := by
  refine ⟨⟨fun r hr => ?_, ?_⟩, ?_, fun k tr hk => ?_, ?_⟩
  · rw [hj, List.mem_append, List.mem_singleton] at hr
    rw [hn]
    rcases hr with hr | rfl
    · exact hl.queued r hr
    · exact hg.lt
  · rw [ht, hn]
    exact hl.pending
  · rw [hj, List.nodup_append]
    refine ⟨hl.nodup, List.nodup_singleton _, fun a ha b hb hab => ?_⟩
    rw [List.mem_singleton] at hb
    exact hg.queued (hb ▸ hab ▸ ha)
  · rw [ht] at hk
    obtain ⟨hnodup, hnot⟩ := hl.waiting k tr hk
    refine ⟨hnodup, fun r hr hmem => ?_⟩
    rw [hj, List.mem_append, List.mem_singleton] at hmem
    rcases hmem with hmem | rfl
    · exact hnot r hr hmem
    · exact hg.waiting k tr hk hr
  · rw [ht]
    exact hl.apart

theorem waiting_fresh {tr : TaskResource} (hf : tr.Fresh) : tr.waiting = tr.pending.tail := by
  rw [TaskResource.waiting, hf.index, Nat.zero_add, List.drop_one]

theorem Gone.dequeue (hg : Gone m ref) (i : Nat) : Gone { m with jobs := m.jobs.eraseIdx i } ref :=
  ⟨hg.lt, fun hmem => hg.queued (List.mem_of_mem_eraseIdx hmem), hg.waiting⟩

theorem Gone.enqueue {next : Ref} (hg : Gone m ref) (hne : ref ≠ next) (hn : m'.next = m.next)
    (ht : m'.trs = m.trs) (hj : m'.jobs = m.jobs ++ [next]) : Gone m' ref := by
  refine ⟨hn ▸ hg.lt, ?_, ht ▸ hg.waiting⟩
  rw [hj, List.mem_append, List.mem_singleton, not_or]
  exact ⟨hg.queued, hne⟩

section Introduce

variable {task : Task} {tr : TaskResource}

theorem introduced_new (hn : NewTask m task tr) {k : Nat} {r : Ref} (hr : r ∈ tr.pending) :
    m.next ≤ r ∧ r < (m.introduce k task tr).next := by
  have hmem := hn.pending r hr
  rw [hn.refs] at hmem
  obtain ⟨i, hi, rfl⟩ := List.mem_range'.mp hmem
  exact ⟨Nat.le_add_right _ _, by simpa [TaskManager.introduce, putTask, alloc] using hi⟩

theorem introduced_trs (k : Nat) {k' : Nat} {tr' : TaskResource}
    (h : (m.introduce k task tr).trs[k']? = some tr') :
    k = k' ∧ tr' = tr ∨ k ≠ k' ∧ m.trs[k']? = some tr' := by
  simp only [TaskManager.introduce, putTask, ExtMap.getElem?_insert] at h
  split at h
  · next hk =>
    cases h
    exact .inl ⟨hk, rfl⟩
  · next hk => exact .inr ⟨hk, h⟩

theorem Gone.introduce (hg : Gone m ref) (hn : NewTask m task tr) (k : Nat) :
    Gone (m.introduce k task tr) ref := by
  refine ⟨Nat.lt_of_lt_of_le hg.lt (Nat.le_add_right _ _), hg.queued, fun k' tr' hk' hmem => ?_⟩
  rcases introduced_trs k hk' with ⟨-, rfl⟩ | ⟨-, hk'⟩
  · have hnew := (introduced_new hn (k := k) (List.mem_of_mem_drop hmem)).1
    exact absurd hg.lt (Nat.not_lt.mpr hnew)
  · exact hg.waiting k' tr' hk' hmem

theorem Lined.introduce (hl : Lined m) (hn : NewTask m task tr) (hf : tr.Fresh) (k : Nat) :
    Lined (m.introduce k task tr) := by
  have hnew : ∀ r ∈ tr.waiting, m.next ≤ r := fun r hr =>
    (introduced_new hn (k := k) (List.mem_of_mem_drop hr)).1
  have hle : m.next ≤ (m.introduce k task tr).next := Nat.le_add_right _ _
  refine ⟨⟨fun r hr => Nat.lt_of_lt_of_le (hl.queued r hr) hle, fun k' tr' hk' r hr => ?_⟩, hl.nodup,
    fun k' tr' hk' => ?_, fun k₁ k₂ tr₁ tr₂ hne hk₁ hk₂ r hr₁ hr₂ => ?_⟩
  · rcases introduced_trs k hk' with ⟨-, rfl⟩ | ⟨-, hk'⟩
    · exact (introduced_new hn hr).2
    · exact Nat.lt_of_lt_of_le (hl.pending k' tr' hk' r hr) hle
  · rcases introduced_trs k hk' with ⟨-, rfl⟩ | ⟨-, hk'⟩
    · refine ⟨hf.nodup.sublist (List.drop_sublist ..), fun r hr hmem => ?_⟩
      exact absurd (hl.queued r hmem) (Nat.not_lt.mpr (hnew r hr))
    · exact hl.waiting k' tr' hk'
  · rcases introduced_trs k hk₁ with ⟨rfl, rfl⟩ | ⟨-, hold₁⟩
    · rcases introduced_trs k hk₂ with ⟨rfl, -⟩ | ⟨-, hold₂⟩
      · exact hne rfl
      · exact absurd (waiting_lt hl.toAllocated hold₂ r hr₂) (Nat.not_lt.mpr (hnew r hr₁))
    · rcases introduced_trs k hk₂ with ⟨-, rfl⟩ | ⟨-, hold₂⟩
      · exact absurd (waiting_lt hl.toAllocated hold₁ r hr₁) (Nat.not_lt.mpr (hnew r hr₂))
      · exact hl.apart k₁ k₂ tr₁ tr₂ hne hold₁ hold₂ r hr₁ hr₂

theorem Lined.gone_introduce (hl : Lined m) (hn : NewTask m task tr) (hf : tr.Fresh) (k : Nat)
    (hp : tr.pending.head? = some ref) : Gone (m.introduce k task tr) ref := by
  obtain ⟨rest, hp⟩ := List.head?_eq_some_iff.mp hp
  obtain ⟨hnew, hlt⟩ := introduced_new hn (k := k) (show ref ∈ tr.pending by simp [hp])
  refine ⟨hlt, fun hmem => absurd (hl.queued ref hmem) (Nat.not_lt.mpr hnew), fun k' tr' hk' hmem => ?_⟩
  rcases introduced_trs k hk' with ⟨-, rfl⟩ | ⟨-, hk'⟩
  · rw [waiting_fresh hf, hp, List.tail_cons] at hmem
    exact (List.nodup_cons.mp (hp ▸ hf.nodup)).1 hmem
  · exact absurd (waiting_lt hl.toAllocated hk' ref hmem) (Nat.not_lt.mpr hnew)

end Introduce

/-- A task queues the next job object of its list. -/
def Advances (m m' : TaskManager) : Prop :=
  ∃ (k : Nat) (tr : TaskResource) (next : Ref), m.trs[k]? = some tr ∧
    tr.pending[tr.jobIndex + 1]? = some next ∧ m'.next = m.next ∧
    m'.trs = m.trs.insert k { tr with jobIndex := tr.jobIndex + 1 } ∧ m'.jobs = m.jobs ++ [next]

theorem waiting_next {tr : TaskResource} {next : Ref} (h : tr.pending[tr.jobIndex + 1]? = some next) :
    tr.waiting = next :: { tr with jobIndex := tr.jobIndex + 1 }.waiting := by
  obtain ⟨hlt, rfl⟩ := List.getElem?_eq_some_iff.mp h
  exact List.drop_eq_getElem_cons hlt

theorem Advances.gone (h : Advances m m') (hg : Gone m ref) : Gone m' ref := by
  obtain ⟨k, tr, next, hk, hnext, hn, ht, hj⟩ := h
  have hw := hg.waiting k tr hk
  rw [waiting_next hnext, List.mem_cons, not_or] at hw
  refine ⟨hn ▸ hg.lt, ?_, fun k' tr' hk' => ?_⟩
  · rw [hj, List.mem_append, List.mem_singleton, not_or]
    exact ⟨hg.queued, hw.1⟩
  · rw [ht, ExtMap.getElem?_insert] at hk'
    split at hk'
    · cases hk'
      exact hw.2
    · exact hg.waiting k' tr' hk'

theorem Advances.lined (h : Advances m m') (hl : Lined m) : Lined m' := by
  obtain ⟨k, tr, next, hk, hnext, hn, ht, hj⟩ := h
  have hw := waiting_next hnext
  obtain ⟨hnodup, hnot⟩ := hl.waiting k tr hk
  rw [hw] at hnodup hnot
  have hshrunk : Shrunk m { m with trs := m'.trs } :=
    .putTask { tr with jobIndex := tr.jobIndex + 1 } hk rfl (hw ▸ List.sublist_cons_self ..) rfl rfl ht
  refine (hshrunk.lined hl).enqueue ⟨?_, hnot next (List.mem_cons_self ..),
    fun k' tr' hk' hmem => ?_⟩ hn rfl hj
  · exact waiting_lt hl.toAllocated hk next (hw ▸ List.mem_cons_self ..)
  · simp only [ht, ExtMap.getElem?_insert] at hk'
    split at hk'
    · cases hk'
      exact (List.nodup_cons.mp hnodup).1 hmem
    · next hne => exact hl.apart k k' tr tr' hne hk hk' next (hw ▸ List.mem_cons_self ..) hmem

theorem finished_queue {key : Nat} {t : JobResource} (h : m.finished key t = some m') :
    Shrunk m m' ∨ Advances m m' := by
  obtain ⟨tr, m₁, htr, rfl, ⟨next, hnext, rfl⟩ | ⟨-, rfl⟩⟩ := finished_cases h
  · exact .inr ⟨_, tr, next, htr, hnext, rfl, rfl, rfl⟩
  · exact .inl (.putTask { tr with mt := { tr.mt with state := .finished } } htr rfl
      (List.Sublist.refl _) rfl rfl
      rfl)

theorem canceled_shrunk {key : Nat} {c : Meta} {t : JobResource} (h : m.canceled key c t = some m') :
    Shrunk m m' := by
  obtain ⟨t', tr, -, htr, rfl⟩ := canceled_cases h
  have hnil : { tr with jobIndex := tr.pending.length, canceled := true }.waiting = [] :=
    List.drop_of_length_le (Nat.le_succ _)
  refine .putTask { tr with jobIndex := tr.pending.length, canceled := true } htr rfl ?_ rfl rfl rfl
  rw [hnil]
  exact List.nil_sublist _

theorem stop_shrunk {key : Nat} {t : JobResource} (h : m.stop key t = some m') : Shrunk m m' := by
  obtain ⟨tr, m₁, htr, hm₁, rfl⟩ := stop_cases h
  have hkeep : m₁.next = m.next ∧ m₁.jobs = m.jobs ∧ m₁.trs = m.trs := by
    rw [hm₁]
    split <;> exact ⟨rfl, rfl, rfl⟩
  refine .putTask { tr with canceled := true, mt := { tr.mt with state := .finished } } htr rfl
    (List.Sublist.refl _) hkeep.1 hkeep.2.1 ?_
  rw [← hkeep.2.2]
  rfl

theorem handled_queue {mt : Meta} (h : Handled m mt m') : Shrunk m m' ∨ Advances m m' := by
  cases h with
  | duplicate => exact .inl (.of_eq rfl rfl rfl)
  | confirm => exact .inl (.of_eq rfl rfl rfl)
  | confirmLast => exact .inl (.of_eq rfl rfl rfl)
  | finish => exact .inl (.of_eq rfl rfl rfl)
  | finishLast _ _ _ _ _ hm =>
    rcases finished_queue hm with hs | ha
    · exact .inl ⟨hs.next, hs.jobs, hs.trs⟩
    · exact .inr ha
  | cancel _ _ hm =>
    have hs := canceled_shrunk hm
    exact .inl ⟨hs.next, hs.jobs, hs.trs⟩
  | timeout _ hm =>
    obtain ⟨htrs, hjobs, -⟩ := timeout_keeps hm
    exact .inl (.of_eq (Frame.timeout hm).next hjobs htrs)
  | jobTimeout _ hm =>
    obtain ⟨htrs, hjobs, -⟩ := timeout_keeps hm
    exact .inl (.of_eq (Frame.timeout hm).next hjobs htrs)
  | @stop m₁ _ _ _ hm hj he =>
    obtain ⟨htrs, hjobs, -⟩ := timeout_keeps hm
    have hs := stop_shrunk he
    refine .inl ⟨hs.next.trans (Frame.timeout hm).next, hs.jobs.trans hjobs, ?_⟩
    rw [← htrs]
    exact hs.trs
  | ignored => exact .inl (.of_eq rfl rfl rfl)

end TaskManager

end Tarantula
