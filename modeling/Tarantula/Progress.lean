import Tarantula.TaskSteps

/-! The place of a task in its list of jobs. As long as none of its jobs is canceled, the
jobs before the current one are finished and no other is queued or running. -/

namespace Tarantula

/-- The jobs of a task have different ids, and so have the transactions of different jobs. -/
structure Directory.Unique (dir : Directory) : Prop where
  jobs : ∀ T, (dir.jobs T).Nodup
  txs : ∀ {j j' id}, id ∈ dir.txs j → id ∈ dir.txs j' → j = j'

theorem sampleDirectory_unique : sampleDirectory.Unique := by
  refine ⟨fun T => ?_, fun {j j' id} h h' => ?_⟩
  · simp only [sampleDirectory]
    split <;> decide
  · simp only [sampleDirectory] at h h'
    split at h <;> split at h' <;> try split at h
    all_goals try split at h'
    all_goals simp at h h'
    all_goals omega

namespace TaskManager

structure Progress (dir : Directory) (m : TaskManager) (T : Nat) (tr : TaskResource) : Prop where
  nodup : tr.pending.Nodup
  done : tr.canceled = false → ∀ i < tr.jobIndex, ∀ r, tr.pending[i]? = some r →
    (m.marks (m.jobId r)).finished = true
  current : tr.canceled = false → ∀ k, dir.task k = T → (m.marks k).started = true →
    (m.marks k).finished = false → ∃ r, tr.pending[tr.jobIndex]? = some r ∧ m.jobId r = k
  waiting : tr.canceled = false → ∀ r ∈ m.queue tr, tr.pending[tr.jobIndex]? = some r
  full : tr.canceled = false → ∀ k, dir.task k = T → (m.marks k).finished = true → m.Full k
  idle : m.queue tr ≠ [] → ∀ k, dir.task k = T → (m.marks k).started = true →
    (m.marks k).finished = true
  once : (m.queue tr).length ≤ 1
  closing : tr.canceled = true → tr.pending.length ≤ tr.jobIndex

variable {dir : Directory} {Q : TaskManager → Meta → Prop} {m m' : TaskManager} {T : Nat}
  {tr : TaskResource}

theorem full_of_not_started {k : Nat} (h : (m.marks k).started = false) : m.Full k := by
  intro tj hj
  have hj : m.tjs[k]? = some tj := hj
  simp [marks, hj] at h

theorem jobId_inj (hu : dir.Unique) (hw : Wellformed dir m) (htr : m.trs[T]? = some tr) {r r' : Ref}
    (hr : r ∈ tr.refs) (hr' : r' ∈ tr.refs) (h : m.jobId r = m.jobId r') : r = r' := by
  have hnd : (tr.refs.map fun r => (m.heap r).mt.id).Nodup := by
    rw [TaskResource.refs, (hw.task T tr htr).ids]
    exact hu.jobs T
  exact List.inj_on_of_nodup_map hnd hr hr' h

theorem LastFinished.unfinished {mt : Meta} {tj : JobResource} (hf : LastFinished m mt tj)
    (hfull : (m.marks mt.jobId).finished = true → m.Full mt.jobId) :
    (m.marks mt.jobId).finished = false := by
  rw [Bool.eq_false_iff]
  intro hfin
  have h₁ := hfull hfin tj hf.job
  have h₂ := hf.parties
  omega

theorem started_of_entry {k : Nat} {tj : JobResource} (h : m.tjs[k]? = some tj) :
    (m.marks k).started = true := by
  simp [marks, h]

namespace Progress

theorem queue_nil (h : Progress dir m T tr) {k : Nat} (hk : dir.task k = T)
    (hs : (m.marks k).started = true) (hf : (m.marks k).finished = false) : m.queue tr = [] := by
  by_contra hq
  simp [h.idle hq k hk hs] at hf

theorem finished_of_ne (h : Progress dir m T tr) (hc : tr.canceled = false) {k j : Nat}
    (hk : dir.task k = T) (hs : (m.marks k).started = true) (hf : (m.marks k).finished = false)
    (hj : dir.task j = T) (hjs : (m.marks j).started = true) (hne : k ≠ j) :
    (m.marks j).finished = true := by
  by_contra hfin
  obtain ⟨r, hr, rfl⟩ := h.current hc k hk hs hf
  obtain ⟨r', hr', rfl⟩ := h.current hc j hj hjs (by simpa using hfin)
  obtain rfl := Option.some.inj (hr.symm.trans hr')
  exact hne rfl

theorem same (h : Progress dir m T tr) (hw : Wellformed dir m) (htr : m.trs[T]? = some tr)
    (hm : ∀ k, dir.task k = T → m'.marks k = m.marks k)
    (hfull : ∀ k, dir.task k = T → m.Full k → m'.Full k) (hq : m'.queue tr = m.queue tr)
    (hid : ∀ r ∈ tr.refs, m'.jobId r = m.jobId r) : Progress dir m' T tr := by
  have hmem : ∀ r ∈ tr.pending, r ∈ tr.refs := (hw.task T tr htr).pending
  have htask : ∀ r ∈ tr.pending, m'.jobId r = m.jobId r ∧ dir.task (m.jobId r) = T := fun r hr =>
    ⟨hid r (hmem r hr), dir.task_of_mem (Reserved.ref_ids hw htr (hmem r hr)).1⟩
  refine ⟨h.nodup, fun hc i hi r hr => ?_, fun hc k hk => ?_, ?_, fun hc k hk => ?_, ?_, ?_, h.closing⟩
  · have hx := htask r (List.mem_of_getElem? hr)
    rw [hx.1, hm _ hx.2]
    exact h.done hc i hi r hr
  · rw [hm k hk]
    intro hs hf
    obtain ⟨r, hr, rfl⟩ := h.current hc k hk hs hf
    exact ⟨r, hr, (htask r (List.mem_of_getElem? hr)).1⟩
  · rw [hq]
    exact h.waiting
  · rw [hm k hk]
    exact fun hf => hfull k hk (h.full hc k hk hf)
  · rw [hq]
    intro hne k hk
    rw [hm k hk]
    exact h.idle hne k hk
  · rw [hq]
    exact h.once

theorem started (h : Progress dir m T tr) (hu : dir.Unique) (hw : Wellformed dir m)
    (htr : m.trs[T]? = some tr) {i : Nat} {ref : Ref} (hi : m.jobs[i]? = some ref) (hr : ref ∈ tr.refs)
    (hq : m'.jobs = m.jobs.eraseIdx i) (href : m'.marks (m.jobId ref) = ⟨true, false, false⟩)
    (hm : ∀ k, m.jobId ref ≠ k → m'.marks k = m.marks k)
    (hfull : ∀ k, m.jobId ref ≠ k → m.Full k → m'.Full k)
    (hid : ∀ r ∈ tr.refs, m'.jobId r = m.jobId r) : Progress dir m' T tr := by
  have hmem : ∀ r ∈ tr.pending, r ∈ tr.refs := (hw.task T tr htr).pending
  have hin : ref ∈ m.queue tr := List.mem_filter.mpr ⟨List.mem_of_getElem? hi, by simpa using hr⟩
  have hempty : m'.queue tr = [] := by
    rw [queue, hq, List.filter_eq_nil_iff]
    simpa using not_mem_of_eraseIdx h.once hi (by simpa using hr)
  have hidle := h.idle (List.ne_nil_of_mem hin)
  refine ⟨h.nodup, fun hc n hn r hr' => ?_, fun hc k hk hs hf => ?_, by simp [hempty],
    fun hc k hk hf => ?_, fun hne => absurd hempty hne, by simp [hempty], h.closing⟩
  · -- an earlier job is another one, so it stays finished
    have hcur := h.waiting hc ref hin
    have hne : ref ≠ r := by
      rintro rfl
      have hi := (List.getElem?_inj (List.getElem?_eq_some_iff.mp hcur).1 h.nodup).mp (hcur.trans hr'.symm)
      omega
    have hr₀ := hmem r (List.mem_of_getElem? hr')
    rw [hid r hr₀, hm _ fun he => hne (jobId_inj hu hw htr hr hr₀ he)]
    exact h.done hc n hn r hr'
  · by_cases he : m.jobId ref = k
    · exact ⟨ref, h.waiting hc ref hin, (hid ref hr).trans he⟩
    · rw [hm k he] at hs hf
      simp [hidle k hk hs] at hf
  · by_cases he : m.jobId ref = k
    · rw [← he, href] at hf
      cases hf
    · rw [hm k he] at hf
      exact hfull k he (h.full hc k hk hf)

theorem canceled (h : Progress dir m T tr) {j : Nat} (hq : m'.queue tr = m.queue tr)
    (hm : ∀ k, m'.marks k = if j = k then { m.marks k with canceled := true } else m.marks k) :
    Progress dir m' T { tr with jobIndex := tr.pending.length, canceled := true } := by
  have hq' : m'.queue { tr with jobIndex := tr.pending.length, canceled := true } = m.queue tr := hq
  have hmark := marks_of_canceled hm
  refine ⟨h.nodup, nofun, nofun, nofun, nofun, ?_, by rw [hq']; exact h.once, fun _ => Nat.le_refl _⟩
  rw [hq']
  intro hne k hk
  rw [(hmark k).1, (hmark k).2]
  exact h.idle hne k hk

theorem next (h : Progress dir m T tr) (hw : Wellformed dir m) (htr : m.trs[T]? = some tr) {mt : Meta}
    {tj : JobResource} {ref : Ref} (hf : LastFinished m mt tj) (hT : dir.task mt.jobId = T)
    (hp : tr.pending[tr.jobIndex + 1]? = some ref) (hq : m'.queue tr = m.queue tr ++ [ref])
    (hm : ∀ k, m'.marks k = if mt.jobId = k then { m.marks k with finished := true } else m.marks k)
    (hfull : ∀ k, m.Full k ∨ mt.jobId = k → m'.Full k)
    (hid : ∀ r ∈ tr.refs, m'.jobId r = m.jobId r) :
    Progress dir m' T { tr with jobIndex := tr.jobIndex + 1 } := by
  have hmem : ∀ r ∈ tr.pending, r ∈ tr.refs := (hw.task T tr htr).pending
  have hc : tr.canceled = false := by
    rw [Bool.eq_false_iff]
    intro hx
    have hle := h.closing hx
    have hlt := (List.getElem?_eq_some_iff.mp hp).1
    omega
  have hstarted := started_of_entry hf.job
  have hunf := hf.unfinished (h.full hc _ hT)
  have hnil := h.queue_nil hT hstarted hunf
  have hq' : m'.queue { tr with jobIndex := tr.jobIndex + 1 } = [ref] := by
    rw [hnil] at hq
    exact hq
  have hdone : ∀ k, (m'.marks k).finished = true ↔ (m.marks k).finished = true ∨ mt.jobId = k := by
    intro k
    rw [hm]
    split <;> simp [*]
  have hall : ∀ k, dir.task k = T → (m'.marks k).started = true → (m'.marks k).finished = true := by
    intro k hk hs
    rw [hdone]
    by_cases he : mt.jobId = k
    · exact .inr he
    · rw [hm, if_neg he] at hs
      exact .inl (h.finished_of_ne hc hT hstarted hunf hk hs he)
  refine ⟨h.nodup, fun _ i hi r hr => ?_, fun _ k hk hs hx => ?_, fun _ r hr => ?_, fun _ k hk hx => ?_,
    fun _ => hall, by simp [hq'], fun hx => by simp [hc] at hx⟩
  · rw [hid r (hmem r (List.mem_of_getElem? hr)), hdone]
    rcases Nat.lt_succ_iff_lt_or_eq.mp hi with hlt | rfl
    · exact .inl (h.done hc i hlt r hr)
    · obtain ⟨r', hr', he⟩ := h.current hc _ hT hstarted hunf
      obtain rfl := Option.some.inj (hr'.symm.trans hr)
      exact .inr he.symm
  · simp [hall k hk hs] at hx
  · rw [hq', List.mem_singleton] at hr
    exact hr ▸ hp
  · rw [hdone] at hx
    rcases hx with hx | hx
    · exact hfull k (.inl (h.full hc k hk hx))
    · exact hfull k (.inr hx)

theorem step (hu : dir.Unique) (hw : Wellformed dir m) (hne : tr.mt.state ≠ .finished)
    (hs : TaskStep dir Q m m' T tr)
    (h : ∀ tr₀, m.trs[T]? = some tr₀ → tr₀.mt.state ≠ .finished → Progress dir m T tr₀) :
    Progress dir m' T tr := by
  cases hs with
  | same htr hm hfull hq hid => exact (h tr htr hne).same hw htr hm hfull hq hid
  | queued _ hn hp hq hm =>
    refine ⟨hn.nodup, fun _ i hi => ?_, fun _ k hk hs => ?_, fun _ r hr => ?_,
      fun _ k hk _ => full_of_not_started (hm k hk), fun _ k hk hs => ?_, by simp [hq],
      fun hc => by simp [hn.canceled] at hc⟩
    · rw [hn.index] at hi
      cases hi
    · simp [hm k hk] at hs
    · rw [hq, List.mem_singleton] at hr
      rw [hn.index, hr]
      exact hp
    · simp [hm k hk] at hs
  | @running _ ref _ hn hp hq hT href hm =>
    have hk : ∀ k, dir.task k = T → (m'.marks k).started = true → m'.jobId ref = k := by
      intro k hk hs
      by_contra he
      simp [hm k hk he] at hs
    refine ⟨hn.nodup, fun _ i hi => ?_, fun _ k hk' hs _ => ⟨ref, by rw [hn.index]; exact hp, hk k hk' hs⟩,
      by simp [hq], fun _ k hk' hf => ?_, by simp [hq], by simp [hq], fun hc => by simp [hn.canceled] at hc⟩
    · rw [hn.index] at hi
      cases hi
    · by_cases he : m'.jobId ref = k
      · simp [← he, href] at hf
      · exact full_of_not_started (hm k hk' he)
  | jobless _ hn hp hq hm =>
    refine ⟨hn.nodup, fun _ i hi => ?_, fun _ k hk hs => ?_, by simp [hq],
      fun _ k hk _ => full_of_not_started (hm k hk), by simp [hq], by simp [hq],
      fun hc => by simp [hn.canceled] at hc⟩
    · rw [hn.index] at hi
      cases hi
    · simp [hm k hk] at hs
  | started htr hi hr hq hT href hm hfull hid =>
    exact (h tr htr hne).started hu hw htr hi hr hq href hm hfull hid
  | canceled _ _ _ _ htr hq hm => exact (h _ htr hne).canceled hq hm
  | next hf hT htr hp hq hm hfull hid => exact (h _ htr hne).next hw htr hf hT hp hq hm hfull hid

end Progress

end TaskManager

end Tarantula
