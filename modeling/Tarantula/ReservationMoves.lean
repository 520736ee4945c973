import Tarantula.Reservations

/-! The reservations when a report is handled: the order of the jobs of its task is
kept, and a task that ends has none left undecided. -/

namespace Tarantula.TaskManager.Reserved

variable {dir : Directory} {m m' : TaskManager}

/-- What is known when a report of a job of the unfinished task `T` is handled. -/
structure Arrival (dir : Directory) (m : TaskManager) (mt : Meta) (tr : TaskResource) : Prop where
  task : m.trs[dir.task mt.jobId]? = some tr
  unfinished : tr.mt.state ≠ .finished
  finished : mt.state = .finished →
    reported mt.jobId mt.id .finished (history mt.jobId m.log) = true ∨
      decided mt.jobId (history mt.jobId m.log) = true
  stopped : mt.state = .jobTimeout → ∀ k ∈ dir.jobs (dir.task mt.jobId), ∀ tj ∈ m.tjs[k]?,
    decided k (history k m.log) = true ∨ tj.confirmed = 0

variable {mt : Meta} {tr : TaskResource}

theorem incomplete (hs : Sound dir m) {tj : JobResource} (hf : LastFinished m mt tj) :
    ¬ Complete dir mt.jobId (history mt.jobId m.log) := by
  intro hc
  obtain ⟨t, ht, hz⟩ := hf.first
  have hid := ((hs.wellformed.job _ tj hf.job).mem mt.id).mp (by simp [ht])
  have hfirst := (hs.counting _ tj hf.job).first_finished ht hz
  simp [hc.finished _ hid] at hfirst

theorem decided_of_last (hs : Sound dir m) (ha : Arrival dir m mt tr) {tj : JobResource}
    (hf : LastFinished m mt tj) : decided mt.jobId (history mt.jobId m.log) = true := by
  obtain ⟨t, ht, hz⟩ := hf.first
  have hfirst := (hs.counting _ tj hf.job).first_finished ht hz
  rcases ha.finished hf.state with h | h
  · simp [hfirst] at h
  · exact h

/-- When the last `FINISHED` of a job arrives, the other started jobs of its task are
complete. -/
theorem others_complete (h : Reserved dir m) (hs : Sound dir m) (ha : Arrival dir m mt tr)
    {tj tj' : JobResource} (hf : LastFinished m mt tj) {k : Nat} (hj : m.tjs[k]? = some tj')
    (hk : dir.task k = dir.task mt.jobId) (hne : k ≠ mt.jobId) :
    Complete dir k (history k m.log) :=
  ((h.order _ tr ha.task ha.unfinished).alone k mt.jobId tj' tj hj hf.job hk rfl hne).resolve_right
    (incomplete hs hf)

theorem settled_at_finish (h : Reserved dir m) (hs : Sound dir m) (ha : Arrival dir m mt tr)
    {tj : JobResource} (hf : LastFinished m mt tj) {k : Nat} (hk : dir.task k = dir.task mt.jobId) :
    Settled dir k m.log := by
  cases hj : m.tjs[k]? with
  | none => exact h.settled k (.inl hj)
  | some tj' =>
    refine (h.owed k tj' hj).settled ?_
    by_cases he : k = mt.jobId
    · exact he ▸ decided_of_last hs ha hf
    · exact (h.others_complete hs ha hf hj hk he).decided

theorem settled_at_stop (h : Reserved dir m) (hs : Sound dir m) (ha : Arrival dir m mt tr)
    (hst : mt.state = .jobTimeout) {k : Nat} (hk : dir.task k = dir.task mt.jobId) :
    Settled dir k m.log := by
  cases hj : m.tjs[k]? with
  | none => exact h.settled k (.inl hj)
  | some tj =>
    have hmem : k ∈ dir.jobs (dir.task mt.jobId) := hk ▸ hs.wellformed.mem_jobs hj
    cases hd : decided k (history k m.log) with
    | true => exact (h.owed k tj hj).settled hd
    | false =>
      -- nothing is counted, so no confirmation has arrived since the start
      have hzero : tj.confirmed = 0 := by
        rcases ha.stopped hst k hmem tj hj with hx | hx
        · simp [hd] at hx
        · exact hx
      have hcount := (hs.counting k tj hj).counter hd
      have hnone : reports dir k .confirmed (history k m.log) = 0 := by omega
      intro id hid hrep
      rcases h.owed k tj hj id hid hrep with hx | ⟨-, hx⟩
      · exact hx
      · exact absurd hx (List.countP_eq_zero.mp hnone id hid)

theorem complete_handled (hs : Sound dir m) (hh : Handled m mt m') {k : Nat} {tj' : JobResource}
    (hk : m'.tjs[k]? = some tj') (hc : Complete dir k (history k m.log)) :
    Complete dir k (history k m'.log) := by
  obtain ⟨tj, -, hm⟩ := handled_move hs.wellformed hs.timers hh hk
  obtain ⟨acts, he⟩ := hm.append
  exact he ▸ hc.append acts

theorem confirming_handled (h : Reserved dir m) (hs : Sound dir m) (ha : Arrival dir m mt tr)
    (hh : Handled m mt m') {T : Nat} {tr₀ : TaskResource} (hT : m.trs[T]? = some tr₀)
    (hne : tr₀.mt.state ≠ .finished) (hc : tr₀.canceled = false)
    (hnc : dir.task mt.jobId = T → mt.state ≠ .canceled) (k : Nat) (tj' : JobResource)
    (hk : m'.tjs[k]? = some tj') (hkT : dir.task k = T) : Confirming dir k tj' (history k m'.log) := by
  obtain ⟨tj, hj, hm⟩ := handled_move hs.wellformed hs.timers hh hk
  have hent := hs.wellformed.job k tj hj
  refine ((h.order T tr₀ hT hne).confirming hc k tj hj hkT).move (hs.counting k tj hj) hent.mem
    hent.parties hm (fun he => hnc (he ▸ hkT)) ?_
  rintro rfl hst
  exact ha.finished hst

theorem order_kept (h : Reserved dir m) (hs : Sound dir m) (ha : Arrival dir m mt tr)
    (hh : Handled m mt m') {T : Nat} {tr₀ tr' : TaskResource} (hT : m.trs[T]? = some tr₀)
    (hne : tr₀.mt.state ≠ .finished) (hrefs : tr'.refs = tr₀.refs)
    (hq : m'.jobs.filter (· ∈ tr₀.refs) = m.jobs.filter (· ∈ tr₀.refs))
    (hc : tr'.canceled = false → tr₀.canceled = false ∧ (dir.task mt.jobId = T → mt.state ≠ .canceled))
    (hcl : tr'.canceled = true → tr'.pending.length ≤ tr'.jobIndex) : TaskOrder dir m' T tr' := by
  have h₀ := h.order T tr₀ hT hne
  have hstep : ∀ (k : Nat) tj', m'.tjs[k]? = some tj' → ∃ tj, m.tjs[k]? = some tj := by
    intro k tj' hk
    obtain ⟨tj, hj, -⟩ := handled_move hs.wellformed hs.timers hh hk
    exact ⟨tj, hj⟩
  refine ⟨fun k k' tj tj' hj hj' hk hk' hd => ?_, fun r hr hmem k tj hj hk => ?_, ?_,
    fun hx => h.confirming_handled hs ha hh hT hne (hc hx).1 (hc hx).2, hcl⟩
  · obtain ⟨tj₀, hj₀⟩ := hstep k tj hj
    obtain ⟨tj₀', hj₀'⟩ := hstep k' tj' hj'
    exact (h₀.alone k k' tj₀ tj₀' hj₀ hj₀' hk hk' hd).imp (complete_handled hs hh hj)
      (complete_handled hs hh hj')
  · obtain ⟨tj₀, hj₀⟩ := hstep k tj hj
    have hmem' : r ∈ m.jobs.filter (· ∈ tr₀.refs) := by
      rw [← hq]
      exact List.mem_filter.mpr ⟨hr, by simpa [hrefs] using hmem⟩
    obtain ⟨hr₀, hr₁⟩ := List.mem_filter.mp hmem'
    exact complete_handled hs hh hj (h₀.queued r hr₀ (by simpa using hr₁) k tj₀ hj₀ hk)
  · rw [hrefs, hq]
    exact h₀.once

theorem order_next (h : Reserved dir m) (hs : Sound dir m) (ha : Arrival dir m mt tr) (hh : Handled m mt m')
    {tj : JobResource} (hf : LastFinished m mt tj) {ref : Ref}
    (hp : tr.pending[tr.jobIndex + 1]? = some ref) (hjobs : m'.jobs = m.jobs ++ [ref])
    (hl : m'.log = [.updateTask tr.mt.id, .finished mt.jobId, .received mt] ++ m.log) :
    TaskOrder dir m' (dir.task mt.jobId) { tr with jobIndex := tr.jobIndex + 1 } := by
  have h₀ := h.order _ tr ha.task ha.unfinished
  have hnc : tr.canceled = false := by
    rw [Bool.eq_false_iff]
    intro hc
    have hlt := (List.getElem?_eq_some_iff.mp hp).1
    have := h₀.closing hc
    omega
  have hnone : m.jobs.filter (· ∈ tr.refs) = [] := by
    rw [List.filter_eq_nil_iff]
    intro r hr hmem
    exact incomplete hs hf (h₀.queued r hr (by simpa using hmem) _ tj hf.job rfl)
  have hall : ∀ (k : Nat) tj', m'.tjs[k]? = some tj' → dir.task k = dir.task mt.jobId →
      Complete dir k (history k m'.log) := by
    intro k tj' hj hk
    by_cases he : k = mt.jobId
    · subst he
      obtain ⟨t, ht, hz⟩ := hf.first
      have hent := hs.wellformed.job _ tj hf.job
      have hcomp := (h₀.confirming hnc _ tj hf.job rfl).complete rfl ((hent.mem _).mp (by simp [ht]))
        hf.state ((hs.counting _ tj hf.job).first_finished ht hz) (decided_of_last hs ha hf)
        (hent.parties ▸ hf.parties)
      have hhist : history mt.jobId m'.log =
          [.finished mt.jobId] ++ .received mt :: history mt.jobId m.log := by simp [hl]
      rw [hhist]
      exact hcomp.append _
    · obtain ⟨tj₀, hj₀, -⟩ := handled_move hs.wellformed hs.timers hh hj
      exact complete_handled hs hh hj (h.others_complete hs ha hf hj₀ hk he)
  refine ⟨fun k _ tj' _ hj _ hk _ _ => .inl (hall k tj' hj hk),
    fun _ _ _ k tj' hj hk => hall k tj' hj hk, ?_, fun _ => ?_, fun hc => by simp [hnc] at hc⟩
  · have hrefs : ({ tr with jobIndex := tr.jobIndex + 1 } : TaskResource).refs = tr.refs := rfl
    rw [hrefs, hjobs, List.filter_append, hnone, List.nil_append]
    exact List.length_filter_le _ _
  · exact h.confirming_handled hs ha hh ha.task ha.unfinished hnc fun _ => by simp [hf.state]

theorem order_handled (h : Reserved dir m) (hs : Sound dir m) (ha : Arrival dir m mt tr)
    (hh : Handled m mt m') {T : Nat} {tr' : TaskResource} (hT : m'.trs[T]? = some tr')
    (hne : tr'.mt.state ≠ .finished) : TaskOrder dir m' T tr' := by
  by_cases hd : T = dir.task mt.jobId
  · subst hd
    have hself : ∀ tr₁, m'.trs = m.trs.insert (dir.task mt.jobId) tr₁ → tr' = tr₁ := by
      intro tr₁ he
      simpa [he] using hT.symm
    cases handled_tasks hs.wellformed hh with
    | calm acts hst htrs hjobs =>
      rw [htrs] at hT
      exact h.order_kept hs ha hh hT hne rfl (by rw [hjobs]) (fun hc => ⟨hc, fun _ => hst⟩)
        (h.order _ tr' hT hne).closing
    | @cancel tr₀ acts hst htr htrs hjobs =>
      obtain rfl := hself _ htrs
      exact h.order_kept hs ha hh htr hne rfl (by rw [hjobs]) (fun hc => by simp at hc) fun _ => Nat.le_refl _
    | @next tj tr₀ ref hf htr hp htrs hjobs hl =>
      obtain rfl := hself _ htrs
      rw [ha.task] at htr
      cases htr
      exact h.order_next hs ha hh hf hp hjobs hl
    | finish hf htr htrs =>
      obtain rfl := hself _ htrs
      exact absurd rfl hne
    | stop acts hst hj htr htrs =>
      obtain rfl := hself _ htrs
      exact absurd rfl hne
  · have hsame : m.trs[T]? = some tr' := (handled_tasks hs.wellformed hh).other hd ▸ hT
    refine h.order_kept hs ha hh hsame hne rfl ?_ (fun hc => ⟨hc, fun hx => absurd hx.symm hd⟩)
      (h.order T tr' hsame hne).closing
    cases handled_tasks hs.wellformed hh with
    | calm _ _ _ hjobs => rw [hjobs]
    | cancel _ _ _ _ hjobs => rw [hjobs]
    | @next _ tr₀ ref _ htr hp _ hjobs =>
      have hmem := (hs.wellformed.task _ tr₀ htr).pending ref (List.mem_of_getElem? hp)
      have hnot : ref ∉ tr'.refs := fun hx => hd (refs_apart hs.wellformed hsame htr hx hmem)
      simp [hjobs, List.filter_append, hnot]
    | finish _ _ _ hjobs => rw [hjobs]
    | stop _ _ _ _ _ hjobs => rw [hjobs]

theorem owed_handled (h : Reserved dir m) (hs : Sound dir m) (hs' : Sound dir m') (hh : Handled m mt m')
    (k : Nat) (tj' : JobResource) (hk : m'.tjs[k]? = some tj') : Owed dir k (history k m'.log) m'.log := by
  obtain ⟨tj, hj, -⟩ := handled_move hs.wellformed hs.timers hh hk
  obtain ⟨acts, hlog, hnot⟩ := (Frame.handled hh).log
  have hasked := (hs'.counting k tj' hk).asked
  rw [hlog] at hasked ⊢
  exact (h.owed k tj hj).append (hnot k) hasked

theorem settled_other (hs : Sound dir m) (hh : Handled m mt m') {k : Nat}
    (hk : k ≠ mt.jobId ∨ m.tjs[k]? = none) (hset : Settled dir k m.log) : Settled dir k m'.log := by
  obtain ⟨acts, hlog, hadds⟩ := handled_adds hs.wellformed hs.timers hh
  rw [hlog]
  refine hset.append fun mt' hmem hj => ?_
  obtain ⟨rfl, hsome⟩ := hadds.received mt' hmem
  rcases hk with hk | hk
  · exact absurd hj.symm hk
  · rw [hj, hk] at hsome
    cases hsome

theorem settled_handled (h : Reserved dir m) (hs : Sound dir m) (ha : Arrival dir m mt tr)
    (hh : Handled m mt m') {k : Nat} {tr' : TaskResource} (hT : m'.trs[dir.task k]? = some tr')
    (hx : tr'.mt.state = .finished) : Settled dir k m'.log := by
  obtain ⟨acts, hlog, hadds⟩ := handled_adds hs.wellformed hs.timers hh
  by_cases hk : dir.task k = dir.task mt.jobId
  · rw [hk] at hT
    have hself : ∀ tr₁, m'.trs = m.trs.insert (dir.task mt.jobId) tr₁ → tr' = tr₁ := by
      intro tr₁ he
      simpa [he] using hT.symm
    cases handled_tasks hs.wellformed hh with
    | calm acts' hst htrs =>
      rw [htrs, ha.task] at hT
      cases hT
      exact absurd hx ha.unfinished
    | cancel acts' hst htr htrs =>
      rw [ha.task] at htr
      cases htr
      obtain rfl := hself _ htrs
      exact absurd hx ha.unfinished
    | next hf htr hp htrs =>
      rw [ha.task] at htr
      cases htr
      obtain rfl := hself _ htrs
      exact absurd hx ha.unfinished
    | finish hf =>
      rw [hlog]
      refine (h.settled_at_finish hs ha hf hk).append fun mt' hmem _ => ?_
      rw [(hadds.received mt' hmem).1, hf.state]
      simp
    | stop acts' hst =>
      rw [hlog]
      refine (h.settled_at_stop hs ha hst hk).append fun mt' hmem _ => ?_
      rw [(hadds.received mt' hmem).1, hst]
      simp
  · have hsame : m.trs[dir.task k]? = some tr' := (handled_tasks hs.wellformed hh).other hk ▸ hT
    exact settled_other hs hh (.inl fun he => hk (he ▸ rfl)) (h.settled k (.inr ⟨tr', hsame, hx⟩))

theorem ends_handled (h : Reserved dir m) (hs : Sound dir m) (ha : Arrival dir m mt tr)
    (hh : Handled m mt m') : EndsSettled dir m'.log := by
  have hid : ∀ tr₀, m.trs[dir.task mt.jobId]? = some tr₀ → tr₀.mt.id = dir.task mt.jobId :=
    fun tr₀ htr => (hs.wellformed.task _ tr₀ htr).id
  cases handled_tasks hs.wellformed hh with
  | calm acts' _ _ _ hl hn =>
    rw [hl, endsSettled_append _ hn]
    exact h.ends
  | cancel acts' _ _ _ _ hl hn =>
    rw [hl, endsSettled_append _ hn]
    exact h.ends
  | next _ _ _ _ _ hl =>
    rw [hl, endsSettled_append _ (by simp [NoEnd])]
    exact h.ends
  | @finish tj tr₀ hf htr _ _ hl =>
    rw [hl]
    refine ⟨fun k hk => ?_, (endsSettled_append _ (by simp [NoEnd])).mpr h.ends⟩
    rw [hid tr₀ htr] at hk
    refine (h.settled_at_finish hs ha hf (dir.task_of_mem hk)).append fun mt' hmem _ => ?_
    have he : mt' = mt := by simpa using hmem
    rw [he, hf.state]
    simp
  | @stop tj tr₀ acts' hst _ htr _ _ hl hn hr =>
    rw [hl]
    refine ⟨fun k hk => ?_, (endsSettled_append _ hn).mpr h.ends⟩
    rw [hid tr₀ htr] at hk
    exact (h.settled_at_stop hs ha hst (dir.task_of_mem hk)).append
      fun mt' hmem _ => absurd hmem (hr mt')

theorem handled (h : Reserved dir m) (hs : Sound dir m) (hs' : Sound dir m')
    (ha : Arrival dir m mt tr) (hh : Handled m mt m') : Reserved dir m' := by
  refine ⟨fun T tr' hT hne => h.order_handled hs ha hh hT hne, h.owed_handled hs hs' hh, fun k hk => ?_,
    h.ends_handled hs ha hh⟩
  rcases hk with hk | ⟨tr', hT, hx⟩
  · have hk₀ : m.tjs[k]? = none := by
      have hx := (Frame.handled hh).tjs k
      rw [hk] at hx
      exact Option.map_eq_none_iff.mp hx.symm
    exact settled_other hs hh (.inr hk₀) (h.settled k (.inl hk₀))
  · exact h.settled_handled hs ha hh hT hx

end Tarantula.TaskManager.Reserved
