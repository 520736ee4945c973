import Tarantula.TaskSteps

/-! The timeout and the number of retries that a transaction object carries: set when its
task is issued and never written by the coordinator. -/

namespace Tarantula

def Job.settings (job : Job) : List (Nat × Nat) :=
  job.transactions.map fun tc => (tc.mt.timeout, tc.mt.retries)

theorem Job.mapMeta_settings (job : Job) {f : Meta → Meta}
    (hf : ∀ mt, (f mt).timeout = mt.timeout ∧ (f mt).retries = mt.retries) :
    (job.mapMeta f).settings = job.settings := by
  simp [Job.settings, Job.mapMeta, hf]

theorem Job.setState_settings (job : Job) (i : Nat) (st : TccState) :
    (job.setState i st).settings = job.settings :=
  Job.map_setState job i st fun _ => rfl

/-- Every transaction of the task carries settings of which `P` holds. -/
def Task.Carries (P : Nat × Nat → Prop) (task : Task) : Prop :=
  ∀ job ∈ task.allJobs, ∀ s ∈ job.settings, P s

def Event.Carries (P : Nat × Nat → Prop) : Event → Prop
  | .recovery _ loaded => ∀ p ∈ loaded, p.1.Carries P
  | .task t => t.Carries P
  | .job _ => True
  | .update _ loaded => ∀ p ∈ loaded, p.1.Carries P

instance (P : Nat × Nat → Prop) [DecidablePred P] (task : Task) : Decidable (task.Carries P) :=
  inferInstanceAs (Decidable (∀ job ∈ task.allJobs, ∀ s ∈ job.settings, P s))

instance (P : Nat × Nat → Prop) [DecidablePred P] : ∀ e : Event, Decidable (e.Carries P)
  | .recovery _ loaded => inferInstanceAs (Decidable (∀ p ∈ loaded, p.1.Carries P))
  | .task t => inferInstanceAs (Decidable (t.Carries P))
  | .job _ => inferInstanceAs (Decidable True)
  | .update _ loaded => inferInstanceAs (Decidable (∀ p ∈ loaded, p.1.Carries P))

namespace TaskManager

variable {dir : Directory} {Q : TaskManager → Meta → Prop} {m m' : TaskManager}

section Settings

theorem settings_update (heap : Ref → Job) {r : Ref} {job : Job} (h : job.settings = (heap r).settings)
    (r' : Ref) : (Function.update heap r job r').settings = (heap r').settings := by
  by_cases hr : r' = r
  · subst hr
    simpa using h
  · simp [hr]

theorem counted_settings (m : TaskManager) (mt : Meta) (tj : JobResource) (t t' : TransactionResource)
    (r : Ref) : ((m.counted mt tj t t').heap r).settings = (m.heap r).settings :=
  settings_update m.heap (Job.setState_settings _ _ _) r

theorem decideAll_settings (m : TaskManager) (key : Nat) (t : JobResource) {f : Meta → Meta}
    (hf : ∀ mt, (f mt).timeout = mt.timeout ∧ (f mt).retries = mt.retries) (r : Ref) :
    ((m.decideAll key t f).heap r).settings = (m.heap r).settings :=
  settings_update m.heap (by exact Job.mapMeta_settings _ hf) r

theorem writeMeta_settings (m : TaskManager) (ref : Ref) (f : Meta → Meta) (r : Ref) :
    ((m.writeMeta ref f).heap r).settings = (m.heap r).settings :=
  settings_update m.heap (by rfl) r

theorem readyJob_settings (m : TaskManager) (tr : TaskResource) (ref r : Ref) :
    ((m.readyJob tr ref).heap r).settings = (m.heap r).settings :=
  writeMeta_settings m ref _ r

theorem start_settings (m : TaskManager) (ref r : Ref) :
    ((m.start ref).heap r).settings = (m.heap r).settings :=
  settings_update m.heap (by exact Job.mapMeta_settings _ fun _ => ⟨rfl, rfl⟩) r

theorem finished_settings {key : Nat} {t : JobResource} (h : m.finished key t = some m') (r : Ref) :
    (m'.heap r).settings = (m.heap r).settings := by
  obtain ⟨tr, m₁, -, rfl, ⟨next, -, rfl⟩ | ⟨-, rfl⟩⟩ := finished_cases h
  · exact (settings_update _ (by rfl) r).trans (settings_update m.heap (by rfl) r)
  · exact settings_update m.heap (by rfl) r

theorem stop_settings {key : Nat} {t : JobResource} (h : m.stop key t = some m') (r : Ref) :
    (m'.heap r).settings = (m.heap r).settings := by
  obtain ⟨tr, m₁, -, hm₁, rfl⟩ := stop_cases h
  have hput : ((m.putJob key { t with canceled := true } (m.heap t.resource)).heap r).settings =
      (m.heap r).settings := settings_update m.heap rfl r
  have h₁ : (m₁.heap r).settings = (m.heap r).settings := by
    rw [hm₁]
    split
    · exact hput
    · next v _ => exact (writeMeta_settings _ v _ r).trans hput
  exact h₁

theorem handled_settings {mt : Meta} (h : Handled m mt m') (r : Ref) :
    (m'.heap r).settings = (m.heap r).settings := by
  cases h with
  | duplicate => rfl
  | confirm => exact counted_settings ..
  | confirmLast =>
    exact (decideAll_settings _ _ _ (by exact fun _ => ⟨rfl, rfl⟩) r).trans (counted_settings ..)
  | finish => exact counted_settings ..
  | finishLast _ _ _ _ _ hm => exact (finished_settings hm r).trans (counted_settings ..)
  | cancel _ _ hm =>
    obtain ⟨t', tr, -, -, rfl⟩ := canceled_cases hm
    exact decideAll_settings _ _ _ (by exact fun _ => ⟨rfl, rfl⟩) r
  | timeout _ hm => rw [(timeout_keeps hm).2.2.1]
  | jobTimeout _ hm => rw [(timeout_keeps hm).2.2.1]
  | stop _ hm _ he => rw [stop_settings he, (timeout_keeps hm).2.2.1]
  | ignored => rfl

theorem micro_settings (h : Micro dir Q m m') {r : Ref} (hr : r < m.next) :
    (m'.heap r).settings = (m.heap r).settings := by
  have hin : ∀ key task tr, ((m.introduce key task tr).heap r) = m.heap r := by
    intro key task tr
    simp [TaskManager.introduce, putTask, alloc, hr]
  cases h with
  | idle => rfl
  | @reload key _ _ _ _ _ h =>
    rcases reload_enters h with rfl | ⟨task, rev, tr, -, -, -, -, ⟨-, rfl, -⟩ | ⟨ref, rest, -, rfl⟩⟩
    · rfl
    · rw [hin]
    · rw [start_settings, ← hin key task tr]
      exact readyJob_settings (m.introduce key task tr) tr ref r
  | @task t _ _ _ h =>
    obtain ⟨tr, ref, -, -, -, -, rfl⟩ := task_enters h
    rw [← hin t.mt.id t tr]
    exact readyJob_settings (m.introduce t.mt.id t tr) tr ref r
  | job => exact start_settings _ _ r
  | clear rkey =>
    unfold clearResource
    split <;> rfl
  | handled _ h => exact handled_settings h r

theorem micro_next (h : Micro dir Q m m') : m.next ≤ m'.next := by
  cases h with
  | idle => exact Nat.le_refl _
  | reload _ _ h =>
    rcases reload_enters h with rfl | ⟨task, rev, tr, -, -, -, -, ⟨-, rfl, -⟩ | ⟨ref, rest, -, rfl⟩⟩
    · exact Nat.le_refl _
    · exact Nat.le_add_right _ _
    · exact Nat.le_add_right _ _
  | task _ _ h =>
    obtain ⟨tr, ref, -, -, -, -, rfl⟩ := task_enters h
    exact Nat.le_add_right _ _
  | job => exact Nat.le_refl _
  | clear rkey =>
    unfold clearResource
    split <;> exact Nat.le_refl _
  | handled _ h => exact Nat.le_of_eq (Frame.handled h).next.symm

end Settings

/-- `P` holds of the settings of every transaction object. -/
def Carrying (P : Nat × Nat → Prop) (m : TaskManager) : Prop :=
  ∀ r < m.next, ∀ s ∈ (m.heap r).settings, P s

namespace Carrying

variable {P : Nat × Nat → Prop}

theorem of_settings (h : Carrying P m) (hn : m'.next = m.next)
    (hs : ∀ r, (m'.heap r).settings = (m.heap r).settings) : Carrying P m' := by
  intro r hr
  rw [hs]
  exact h r (hn ▸ hr)

theorem introduce (h : Carrying P m) (key : Nat) {task : Task} (tr : TaskResource) (ht : task.Carries P) :
    Carrying P (m.introduce key task tr) := by
  intro r hr
  have hheap : (m.introduce key task tr).heap = (m.alloc task.allJobs).heap := rfl
  have hnext : r < m.next + task.allJobs.length := hr
  rw [hheap]
  by_cases hlt : r < m.next
  · simpa [alloc, hlt] using h r hlt
  · obtain ⟨i, rfl⟩ := Nat.exists_eq_add_of_le (Nat.le_of_not_lt hlt)
    have hi : i < task.allJobs.length := Nat.lt_of_add_lt_add_left hnext
    rw [Wellformed.alloc_heap m hi]
    exact ht _ (List.getElem_mem hi)

theorem reloaded (h : Carrying P m) {k : Nat} {loaded : Option (Task × Nat)} {r : Option TaskResource}
    (hl : ∀ p ∈ loaded, p.1.Carries P) (hr : Reloaded m k loaded m' r) : Carrying P m' := by
  cases hr with
  | failed => exact h
  | jobless => exact h.introduce _ _ (hl _ rfl)
  | @started task rev tr ref rest =>
    refine (h.introduce k tr (hl _ rfl)).of_settings rfl fun r => ?_
    rw [start_settings]
    exact readyJob_settings (m.introduce k task tr) tr ref r

theorem found (h : Carrying P m) {e : Event} (he : e.Carries P) (hf : FoundFor e m m') : Carrying P m' := by
  rcases hf with rfl | ⟨mt, loaded, r, rfl, hf⟩
  · exact h
  · rcases find_cases hf with ⟨rfl, -⟩ | ⟨-, hr⟩
    · exact h
    · exact h.reloaded he hr

theorem waited (h : Carrying P m) {e : Event} (he : e.Carries P) (hw : Waited m e m') : Carrying P m' := by
  cases hw with
  | idle => exact h
  | recovered _ hr => exact h.reloaded he hr
  | @task task tr ref =>
    refine (h.introduce task.mt.id tr he).of_settings rfl fun r => ?_
    exact readyJob_settings (m.introduce task.mt.id task tr) tr ref r
  | job => exact h.of_settings rfl fun r => start_settings _ _ r
  | clear =>
    unfold clearResource
    split <;> exact h
  | unloaded _ hr => exact h.reloaded he hr
  | handled _ hf _ hh =>
    have h₁ := h.found he (.inr ⟨_, _, _, rfl, hf⟩)
    exact h₁.of_settings (Frame.handled hh).next (handled_settings hh)

end Carrying

end TaskManager

end Tarantula
