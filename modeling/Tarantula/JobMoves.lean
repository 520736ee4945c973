import Tarantula.Timers

/-! The coordinator seen from one job. An iteration that handles a report moves a
started job by one of a few moves on its resource and its history, and leaves every
other job where it is. -/

namespace Tarantula

/-- The two resources differ at most in flags that no decision looks at. -/
structure SameMarks (tj tj' : JobResource) : Prop where
  fixed : tj'.fixed = tj.fixed
  confirmed : tj'.confirmed = tj.confirmed
  marks : ∀ id : Nat, (tj'.joining[id]?).map (fun t => (t.confirmed, t.finished)) =
    (tj.joining[id]?).map fun t => (t.confirmed, t.finished)

theorem SameMarks.refl (tj : JobResource) : SameMarks tj tj := ⟨rfl, rfl, fun _ => rfl⟩

theorem SameMarks.trans {a b c : JobResource} (h : SameMarks a b) (h' : SameMarks b c) :
    SameMarks a c :=
  ⟨h'.fixed.trans h.fixed, h'.confirmed.trans h.confirmed, fun id => (h'.marks id).trans (h.marks id)⟩

theorem JobResource.marks_insert {tj : JobResource} {id : Nat} {t : TransactionResource}
    (t' : TransactionResource) (ht : tj.joining[id]? = some t)
    (hc : t'.confirmed = t.confirmed) (hf : t'.finished = t.finished) :
    ∀ a : Nat, ((tj.joining.insert id t')[a]?).map (fun t => (t.confirmed, t.finished)) =
      (tj.joining[a]?).map fun t => (t.confirmed, t.finished) := by
  intro a
  rw [ExtMap.getElem?_insert]
  split
  · next h => rw [← h, ht]; simp [hc, hf]
  · rfl

theorem SameMarks.retried {tj : JobResource} {id : Nat} {t : TransactionResource}
    (ht : tj.joining[id]? = some t) :
    SameMarks tj { tj with joining := tj.joining.insert id { t with retried := t.retried + 1 } } :=
  ⟨by simp only [JobResource.fixed, JobResource.fixed_insert { t with retried := t.retried + 1 } ht rfl],
    rfl, JobResource.marks_insert { t with retried := t.retried + 1 } ht rfl rfl⟩

theorem JobResource.cancel_marks {tj tj' : JobResource} {c : Meta} (h : tj.cancel c = some tj') :
    SameMarks tj tj' := by
  have hx := JobResource.cancel_fixed h
  obtain ⟨t, ht, rfl⟩ := Option.map_eq_some_iff.mp h
  exact ⟨hx, rfl, JobResource.marks_insert { t with canceled := true } ht rfl rfl⟩

/-- The history is unchanged, or a finish request in it has been issued once more. -/
def Resent (h h' : List Act) : Prop :=
  h' = h ∨ ∃ tc, .askFinish tc ∈ h ∧ h' = .askFinish tc :: h

/-- The moves of job `k` when `mt` is handled: its resource and its history, before
and after. -/
inductive JobMove (dir : Directory) (k : Nat) (mt : Meta) :
    JobResource → List Act → JobResource → List Act → Prop
  | quiet {tj tj' h h'} (hs : SameMarks tj tj') (hh : Resent h h') : JobMove dir k mt tj h tj' h'
  | again {tj t h} (hk : mt.jobId = k) (ht : tj.joining[mt.id]? = some t)
      (hd : mt.state = .confirmed ∧ 0 < t.confirmed ∨ mt.state = .finished ∧ 0 < t.finished) :
      JobMove dir k mt tj h tj (.received mt :: h)
  | confirm {tj t h} (hk : mt.jobId = k) (ht : tj.joining[mt.id]? = some t)
      (hs : mt.state = .confirmed) (hf : t.confirmed = 0) (hl : tj.joinParties ≠ tj.confirmed + 1) :
      JobMove dir k mt tj h (tj.count mt.id { t with confirmed := t.confirmed + 1 })
        (.received mt :: h)
  | confirmLast {tj t h asks} (hk : mt.jobId = k) (ht : tj.joining[mt.id]? = some t)
      (hs : mt.state = .confirmed) (hf : t.confirmed = 0) (hl : tj.joinParties = tj.confirmed + 1)
      (ha : Asks dir k .confirmed asks) :
      JobMove dir k mt tj h
        { tj.count mt.id { t with confirmed := t.confirmed + 1 } with confirmed := 0 }
        ((asks.map Act.askFinish).reverse ++ .received mt :: h)
  | finish {tj t h} (hk : mt.jobId = k) (ht : tj.joining[mt.id]? = some t)
      (hs : mt.state = .finished) (hf : t.finished = 0) (hl : tj.joinParties ≠ tj.confirmed + 1) :
      JobMove dir k mt tj h (tj.count mt.id { t with finished := t.finished + 1 })
        (.received mt :: h)
  | finishLast {tj t h} (hk : mt.jobId = k) (ht : tj.joining[mt.id]? = some t)
      (hs : mt.state = .finished) (hf : t.finished = 0) (hl : tj.joinParties = tj.confirmed + 1) :
      JobMove dir k mt tj h (tj.count mt.id { t with finished := t.finished + 1 })
        (.finished k :: .received mt :: h)
  | cancel {tj tj' h asks} (hk : mt.jobId = k) (hs : mt.state = .canceled)
      (ht : (tj.joining[mt.id]?).isSome) (hm : SameMarks tj tj') (ha : Asks dir k .canceled asks) :
      JobMove dir k mt tj h { tj' with confirmed := 0 }
        ((asks.map Act.askFinish).reverse ++ .received mt :: h)

namespace TaskManager

variable {dir : Directory} {m m' : TaskManager}

theorem timeout_move (ht : Timers m) {key : Nat} {mt : Meta} (h : m.timeout key mt = some m')
    (k : Nat) : Resent (history k m.log) (history k m'.log) ∧
      ∀ tj', m'.tjs[k]? = some tj' → ∃ tj, m.tjs[k]? = some tj ∧ SameMarks tj tj' := by
  cases timeout_cases h with
  | absent => exact ⟨.inl rfl, fun tj' hk => ⟨tj', hk, .refl tj'⟩⟩
  | last => exact ⟨.inl rfl, fun tj' hk => ⟨tj', hk, .refl tj'⟩⟩
  | @resend tm p m₁ htm hp hr =>
    have htjs : ∀ tj', m₁.tjs[k]? = some tj' → ∃ tj, m.tjs[k]? = some tj ∧ SameMarks tj tj' := by
      rcases retried_cases hr with rfl | ⟨tj, t, hj, htj, tj₁, rfl, rfl⟩
      · exact fun tj' hk => ⟨tj', hk, .refl tj'⟩
      · intro tj' hk
        rw [ExtMap.getElem?_insert] at hk
        split at hk
        · next hkey =>
          cases hk
          exact ⟨tj, hkey ▸ hj, .retried htj⟩
        · exact ⟨tj', hk, .refl tj'⟩
    obtain ⟨tjs, rfl⟩ := retried_eq hr
    obtain ⟨tc, htc, -, ha⟩ := (ht key tm htm).tc p hp
    have hlog : ({ m with tjs, tms := m.tms.insert key { tm with r := tm.r - 1 } }.retry p).log =
        p.ask tc.mt :: m.log := retry_log htc
    refine ⟨?_, ?_⟩
    · rw [hlog]
      cases p with
      | reserve ref i => exact .inl (history_askReserve k tc.mt m.log)
      | finish ref i =>
        rw [Retrying.ask, history_askFinish]
        split
        · next hj => exact .inr ⟨tc.mt, hj ▸ ha rfl, rfl⟩
        · exact .inl rfl
    · rw [retry_tjs]
      exact htjs

theorem finished_log {k : Nat} {t : JobResource} (h : m.finished k t = some m') :
    m'.tjs = m.tjs ∧ ∃ acts, m'.log = acts ++ .finished k :: m.log ∧
      ((∃ T, acts = [.updateTask T]) ∨ ∃ T, acts = [.ended T, .updateTask T]) := by
  obtain ⟨tr, m₁, -, hm₁, hm⟩ := finished_cases h
  have h₁ : m₁.tjs = m.tjs ∧ m₁.log = .finished k :: m.log := by
    rw [hm₁]
    exact ⟨rfl, rfl⟩
  rcases hm with ⟨next, -, rfl⟩ | ⟨-, rfl⟩
  · exact ⟨h₁.1, _, by rw [← h₁.2]; rfl, .inl ⟨tr.mt.id, rfl⟩⟩
  · exact ⟨h₁.1, _, by rw [← h₁.2]; rfl, .inr ⟨tr.mt.id, rfl⟩⟩

theorem stop_log {k : Nat} {t : JobResource} (h : m.stop k t = some m') :
    m'.tjs = m.tjs.insert k { t with canceled := true } ∧
      ∃ T, m'.log = .ended T :: .updateTask T :: .stopped k :: m.log := by
  obtain ⟨tr, m₁, -, hm₁, rfl⟩ := stop_cases h
  have h₁ : m₁.tjs = m.tjs.insert k { t with canceled := true } ∧ m₁.log = m.log := by
    rw [hm₁]
    split <;> exact ⟨rfl, rfl⟩
  exact ⟨h₁.1, tr.mt.id, by rw [← h₁.2]; rfl⟩

theorem confirmed_decision (hw : Wellformed dir m) (k : Nat) (tj : JobResource)
    (hk : m.tjs[k]? = some tj) :
    (m.confirmed k tj).tjs = m.tjs.insert k { tj with confirmed := 0 } ∧
      ∃ asks, Asks dir k .confirmed asks ∧
        (m.confirmed k tj).log = (asks.map Act.askFinish).reverse ++ .confirmed k :: m.log := by
  have hf : Frame m (m.note [.confirmed k]) := .note _ _ (by simp)
  refine ⟨rfl, _, ?_, decideAll_log _ _ _ _⟩
  exact asks_decideAll (hw.of_frame hf) hk rfl (fun _ => ⟨rfl, rfl⟩) fun _ => rfl

theorem canceled_decision (hw : Wellformed dir m) {k : Nat} {c : Meta} {tj : JobResource}
    (hk : m.tjs[k]? = some tj) (h : m.canceled k c tj = some m') :
    ∃ tj', tj.cancel c = some tj' ∧ m'.tjs = m.tjs.insert k { tj' with confirmed := 0 } ∧
      ∃ asks, Asks dir k .canceled asks ∧
        m'.log = (asks.map Act.askFinish).reverse ++ .canceled k :: m.log := by
  obtain ⟨tj', tr, hc, htr, rfl⟩ := canceled_cases h
  have hf := Frame.abandon htr k
  have hr : tj'.resource = tj.resource := congrArg Prod.fst (JobResource.cancel_fixed hc)
  refine ⟨tj', hc, rfl, _, ?_, decideAll_log _ _ _ _⟩
  exact asks_decideAll (hw.of_frame hf) hk hr (fun _ => ⟨rfl, rfl⟩) fun _ => rfl

theorem move_of_insert {mt : Meta} {tj : JobResource} (tj₁ : JobResource) (hj : m.tjs[mt.jobId]? = some tj)
    (htjs : ∀ k : Nat, m'.tjs[k]? = if mt.jobId = k then some tj₁ else m.tjs[k]?)
    (hmove : JobMove dir mt.jobId mt tj (history mt.jobId m.log) tj₁ (history mt.jobId m'.log))
    {k : Nat} (hother : mt.jobId ≠ k → history k m'.log = history k m.log) {tj' : JobResource}
    (hk : m'.tjs[k]? = some tj') : ∃ tj, m.tjs[k]? = some tj ∧
      JobMove dir k mt tj (history k m.log) tj' (history k m'.log) := by
  rw [htjs] at hk
  split at hk
  · next hkey =>
    cases hk
    subst hkey
    exact ⟨tj, hj, hmove⟩
  · next hkey =>
    rw [hother hkey]
    exact ⟨tj', hk, .quiet (.refl _) (.inl rfl)⟩

/-- Every report handled by the coordinator moves each started job by a `JobMove`. -/
theorem handled_move (hw : Wellformed dir m) (ht : Timers m) {mt : Meta} (h : Handled m mt m')
    {k : Nat} {tj' : JobResource} (hk : m'.tjs[k]? = some tj') :
    ∃ tj, m.tjs[k]? = some tj ∧
      JobMove dir k mt tj (history k m.log) tj' (history k m'.log) := by
  have hreceived : history mt.jobId (.received mt :: m.log) = .received mt :: history mt.jobId m.log := by
    simp
  cases h with
  | @duplicate tj _ hj htj hd =>
    refine move_of_insert tj hj (fun k => ?_) ?_ (fun hne => ?_) hk
    · rw [← ExtMap.getElem?_insert, ExtMap.insert_self hj]
      rfl
    · rw [receive_log, hreceived]
      exact .again rfl htj hd
    · simp [hne]
  | confirm hj htj hs hf hl =>
    refine move_of_insert _ hj (fun _ => ExtMap.getElem?_insert ..) ?_ (fun hne => ?_) hk
    · rw [counted, putJob, receive_log, hreceived]
      exact .confirm rfl htj hs hf hl
    · simp [counted, putJob, hne]
  | @confirmLast tj t hj htj hs hf hl =>
    have hc := Frame.counted { t with confirmed := t.confirmed + 1 } hj htj rfl
    obtain ⟨htjs, asks, ha, hlog⟩ := confirmed_decision (hw.of_frame hc) mt.jobId
      (tj.count mt.id { t with confirmed := t.confirmed + 1 }) (by simp [counted, putJob])
    refine move_of_insert { tj.count mt.id { t with confirmed := t.confirmed + 1 } with confirmed := 0 } hj
      (fun k => ?_) ?_ (fun hne => ?_) hk
    · rw [htjs, ExtMap.getElem?_insert]
      simp only [counted, putJob, receive_tjs, ExtMap.getElem?_insert]
      split <;> rfl
    · rw [hlog, ha.history, if_pos rfl, history_confirmed, counted, putJob, receive_log, hreceived]
      exact .confirmLast rfl htj hs hf hl ha
    · rw [hlog, ha.history, if_neg fun h => hne h.symm]
      simp [counted, putJob, hne]
  | finish hj htj hs hf hl =>
    refine move_of_insert _ hj (fun _ => ExtMap.getElem?_insert ..) ?_ (fun hne => ?_) hk
    · rw [counted, putJob, receive_log, hreceived]
      exact .finish rfl htj hs hf hl
    · simp [counted, putJob, hne]
  | @finishLast tj t _ hj htj hs hf hl hm =>
    obtain ⟨htjs, acts, hlog, hacts⟩ := finished_log hm
    have hh : ∀ k, history k m'.log = history k (.finished mt.jobId :: .received mt :: m.log) := by
      intro k
      rw [hlog]
      rcases hacts with ⟨T, rfl⟩ | ⟨T, rfl⟩ <;> simp [counted, putJob]
    refine move_of_insert (tj.count mt.id { t with finished := t.finished + 1 }) hj
      (fun k => ?_) ?_ (fun hne => ?_) hk
    · rw [← ExtMap.getElem?_insert, htjs]
      rfl
    · rw [hh, history_finished, if_pos rfl, hreceived]
      exact .finishLast rfl htj hs hf hl
    · rw [hh]
      simp [hne]
  | @cancel tj _ hj hs hm =>
    obtain ⟨tj₁, hc, htjs, asks, ha, hlog⟩ := canceled_decision (hw.of_frame (.receive m mt)) hj hm
    obtain ⟨t, htj, -⟩ := Option.map_eq_some_iff.mp hc
    refine move_of_insert _ hj (fun _ => htjs ▸ ExtMap.getElem?_insert ..) ?_ (fun hne => ?_) hk
    · rw [hlog, ha.history, if_pos rfl, history_canceled, receive_log, hreceived]
      exact .cancel rfl hs (by simp [htj]) (JobResource.cancel_marks hc) ha
    · rw [hlog, ha.history, if_neg fun h => hne h.symm]
      simp [hne]
  | timeout _ hm =>
    obtain ⟨hr, hj⟩ := timeout_move ht hm k
    obtain ⟨tj, hj, hs⟩ := hj tj' hk
    exact ⟨tj, hj, .quiet hs hr⟩
  | jobTimeout _ hm =>
    obtain ⟨hr, hj⟩ := timeout_move ht hm k
    obtain ⟨tj, hj, hs⟩ := hj tj' hk
    exact ⟨tj, hj, .quiet hs hr⟩
  | @stop m₁ tj₁ _ _ hm hj₁ he =>
    obtain ⟨hr, hj⟩ := timeout_move ht hm k
    obtain ⟨htjs, T, hlog⟩ := stop_log he
    rw [htjs, ExtMap.getElem?_insert] at hk
    rw [hlog]
    simp only [history_ended, history_updateTask, history_stopped]
    split at hk
    · next hkey =>
      cases hk
      obtain ⟨tj, hj, hs⟩ := hj tj₁ (hkey ▸ hj₁)
      exact ⟨tj, hj, .quiet (hs.trans ⟨rfl, rfl, fun _ => rfl⟩) hr⟩
    · obtain ⟨tj, hj, hs⟩ := hj tj' hk
      exact ⟨tj, hj, .quiet hs hr⟩
  | ignored => exact ⟨tj', hk, .quiet (.refl _) (.inl rfl)⟩

end TaskManager

end Tarantula
