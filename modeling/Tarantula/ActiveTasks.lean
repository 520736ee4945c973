import Tarantula.MessageSafety
import Tarantula.Retransmission

/-! Every unfinished task has something to do: one of its jobs is queued, or is started and
not finished. Only a reload can bring a task in that has no job left. -/

namespace Tarantula.TaskManager

variable {dir : Directory} {Q : TaskManager → Meta → Prop} {m m' : TaskManager} {T k : Nat}
  {tr : TaskResource}

/-- A job of the task is queued or running, unless the task came in without a job. -/
def Active (dir : Directory) (m : TaskManager) (T : Nat) (tr : TaskResource) : Prop :=
  tr.pending = [] ∨ m.queue tr ≠ [] ∨
    ∃ k, dir.task k = T ∧ (m.marks k).started = true ∧ (m.marks k).finished = false

/-- All tasks in memory came in with a job. -/
def Busy (m : TaskManager) : Prop := ∀ (T : Nat) tr, m.trs[T]? = some tr → tr.pending ≠ []

/-- A stored task that is not finished has a job that is not finished. -/
def Loadable (loaded : Option (Task × Nat)) : Prop :=
  ∀ p ∈ loaded, p.1.mt.state ≠ .finished → ∃ job ∈ p.1.allJobs, job.mt.state ≠ .finished

instance (loaded : Option (Task × Nat)) : Decidable (Loadable loaded) :=
  inferInstanceAs (Decidable (∀ p ∈ loaded, _))

theorem Active.step (hne : tr.mt.state ≠ .finished) (hs : TaskStep dir Q m m' T tr)
    (h : ∀ tr₀, m.trs[T]? = some tr₀ → tr₀.mt.state ≠ .finished → Active dir m T tr₀) :
    Active dir m' T tr := by
  cases hs with
  | same htr hm _ hq =>
    rcases h tr htr hne with hp | hx | ⟨k, hk, hs, hf⟩
    · exact .inl hp
    · exact .inr (.inl (hq ▸ hx))
    · exact .inr (.inr ⟨k, hk, by rw [hm k hk]; exact hs, by rw [hm k hk]; exact hf⟩)
  | queued _ _ _ hq => exact .inr (.inl (by simp [hq]))
  | running _ _ _ _ hT href => exact .inr (.inr ⟨_, hT, by rw [href], by rw [href]⟩)
  | jobless _ _ hp => exact .inl hp
  | started _ _ _ _ hT href => exact .inr (.inr ⟨_, hT, by rw [href], by rw [href]⟩)
  | @canceled tr₀ _ mt _ _ _ _ htr hq hm =>
    have hmark := marks_of_canceled hm
    rcases h tr₀ htr hne with hp | hx | ⟨k, hk, hs, hf⟩
    · exact .inl hp
    · rw [← hq] at hx
      exact .inr (.inl hx)
    · exact .inr (.inr ⟨k, hk, (hmark k).1.trans hs, (hmark k).2.trans hf⟩)
  | @next tr₀ _ _ ref _ _ _ _ hq =>
    have hx : m'.queue tr₀ ≠ [] := by simp [hq]
    exact .inr (.inl hx)

namespace Busy

theorem reload (h : Busy m) {loaded : Option (Task × Nat)} {r : Option TaskResource}
    (hs : Stored dir k loaded)
    (hl : Loadable loaded) (hr : m.reload k loaded = some (m', r)) : Busy m' := by
  have hinsert : ∀ tr, tr.pending ≠ [] → m'.trs = m.trs.insert k tr → Busy m' := by
    intro tr hp htrs T tr' htr'
    rw [htrs, ExtMap.getElem?_insert] at htr'
    split at htr'
    · exact Option.some.inj htr' ▸ hp
    · exact h T tr' htr'
  rcases reload_enters hr with rfl | ⟨task, rev, tr, rfl, hn, -, hne, ⟨-, -, rfl⟩ | ⟨ref, rest, hp, rfl⟩⟩
  · exact h
  · -- a task without a job is not loadable
    rw [hn.mt] at hne
    obtain ⟨job, hjob, hj⟩ := hl (task, rev) rfl hne
    obtain ⟨m₁, r₁, hr₁, hx⟩ := reload_total m hs
    obtain ⟨-, rfl⟩ := Prod.mk.inj (Option.some.inj (hr.symm.trans hr₁))
    have hfirst : (firstUnfinished (some (task, rev))).isSome := by
      simp only [firstUnfinished, hne, if_false, List.find?_isSome]
      exact ⟨job, hjob, by simpa using hj⟩
    obtain ⟨job', hjob'⟩ := Option.isSome_iff_exists.mp hfirst
    simp only [hjob'] at hx
    obtain ⟨tr', m₀, ref, hr', -⟩ := hx
    cases hr'
  · exact hinsert tr (by simp [hp]) rfl

theorem of_frame (h : Busy m) (hf : Frame m m') : Busy m' := by
  intro T tr htr
  have hx := hf.trs T
  rw [htr] at hx
  obtain ⟨tr₀, htr₀, hfix⟩ := Option.map_eq_some_iff.mp hx.symm
  have hp : tr₀.pending = tr.pending := congrArg (·.2.2.2) hfix
  exact hp ▸ h T tr₀ htr₀

theorem wait (h : Busy m) {e : Event} (hg : e.Genuine dir m)
    (hl : ∀ loaded, (∃ k, e = .recovery k loaded) ∨ (∃ mt, e = .update mt loaded) → Loadable loaded)
    (hw : m.wait e = some m') : Busy m' := by
  cases e with
  | recovery k loaded =>
    simp only [TaskManager.wait] at hw
    split at hw
    · cases hw
      exact h
    · obtain ⟨⟨m₁, r⟩, hr, rfl⟩ := Option.map_eq_some_iff.mp hw
      exact h.reload hg (hl loaded (.inl ⟨k, rfl⟩)) hr
  | task t =>
    obtain ⟨tr, ref, -, -, -, hp, rfl⟩ := task_enters hw
    intro T tr' htr'
    have htr' : (m.trs.insert t.mt.id tr)[T]? = some tr' := htr'
    rw [ExtMap.getElem?_insert] at htr'
    split at htr'
    · rw [← Option.some.inj htr']
      rintro hnil
      simp [hnil] at hp
    · exact h T tr' htr'
  | job i =>
    cases wait_cases hw with
    | idle => exact h
    | job => exact h
  | update mt loaded =>
    by_cases hc : mt.state = .taskClear
    · simp only [TaskManager.wait, hc, if_true] at hw
      cases hw
      intro T tr htr
      unfold clearResource at htr
      split at htr
      · exact h T tr htr
      · rw [ExtMap.getElem?_erase] at htr
        split at htr
        · cases htr
        · exact h T tr htr
    · obtain ⟨m₁, r, hf, hm'⟩ := update_cases hc hw
      have h₁ : Busy m₁ := by
        rcases find_enters hf with rfl | ⟨-, hr⟩
        · exact h
        · exact h.reload hg.1 (hl loaded (.inr ⟨mt, rfl⟩)) hr
      rcases hm' with rfl | ⟨-, -, -, hh⟩
      · exact h₁
      · exact h₁.of_frame (.handled hh)

end Busy

theorem TimerStep.log (h : TimerStep dir Q k m m') : ∃ acts, m'.log = acts ++ m.log := by
  cases h with
  | quiet _ _ _ hl => exact hl.imp fun _ hx => hx.1
  | closed _ _ _ _ _ _ hl => exact hl.imp fun _ hx => hx.1
  | stopped _ _ _ hl => exact hl.imp fun _ hx => hx.1
  | expired _ _ _ _ hl => exact ⟨[], hl⟩
  | resent _ _ _ _ _ _ _ _ _ hl => exact ⟨[_], hl⟩
  | started _ _ _ _ hl =>
    obtain ⟨acts, -, hl⟩ := hl
    exact ⟨_, hl.trans (List.append_assoc _ (.started k :: acts) m.log).symm⟩
  | decided _ _ _ _ _ _ _ hl => exact ⟨_, hl.trans (List.append_assoc _ [_, _] m.log).symm⟩

namespace Running

theorem before_micro (hs : Sound dir m) (hs' : Sound dir m') (hu : dir.Unique) (hm : Micro dir Q m m')
    {tj' : JobResource} (h : Running dir m' k tj') {acts : List Act} (hl : m'.log = acts ++ m.log)
    (hno : .started k ∉ acts) : ∃ tj, Running dir m k tj := by
  have hfin : .finished k ∉ history k m.log := by
    intro hx
    apply h.finished
    rw [hl, history_append _ hno]
    exact List.mem_append_right _ hx
  have hkept : Kept k m m' → ∃ tj, Running dir m k tj := by
    intro hkeep
    obtain ⟨tj, hj, -⟩ := hkeep tj' h.job
    exact ⟨tj, hj, unfinished_before hs hs' hm hj h.job h.task, hfin⟩
  cases TimerStep.of_micro (k := k) hs hu hm with
  | quiet hkeep => exact hkept hkeep
  | closed hkeep => exact hkept hkeep
  | expired hkeep => exact hkept hkeep
  | resent hkeep => exact hkept hkeep
  | decided hkeep => exact hkept hkeep
  | stopped hT =>
    obtain ⟨tr, htr, hx⟩ := hT
    exact absurd hx (h.task tr htr)
  | @started ref asks _ _ _ _ hl' =>
    obtain ⟨acts', -, hl'⟩ := hl'
    have hsame := hl.symm.trans (hl'.trans (List.append_assoc _ (.started k :: acts') m.log).symm)
    rw [List.append_cancel_right hsame] at hno
    simp at hno

theorem before (hs : Sound dir m) (hu : dir.Unique) {e : Event} (hg : e.Genuine dir m)
    (hw : m.wait e = some m') {tj' : JobResource} (h : Running dir m' k tj') {acts : List Act}
    (hl : m'.log = acts ++ m.log) (hno : .started k ∉ acts) : ∃ tj, Running dir m k tj := by
  have hs' := hs.waited hg.numbered (wait_cases hw)
  obtain ⟨m₁, -, hs₁, h₁, h₂⟩ := wait_micro hs hg (.trivial m e) hw
  obtain ⟨acts₁, hl₁⟩ := (TimerStep.of_micro (k := k) hs hu h₁).log
  obtain ⟨acts₂, hl₂⟩ := (TimerStep.of_micro (k := k) hs₁ hu h₂).log
  have hacts : acts = acts₂ ++ acts₁ := by
    rw [hl₂, hl₁, ← List.append_assoc] at hl
    exact (List.append_cancel_right hl).symm
  rw [hacts, List.mem_append, not_or] at hno
  obtain ⟨tj₁, hrun₁⟩ := h.before_micro hs₁ hs' hu h₂ hl₂ hno.1
  exact hrun₁.before_micro hs hs₁ hu h₁ hl₁ hno.2

end Running

end Tarantula.TaskManager
