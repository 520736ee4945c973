import Tarantula.JobCounting

/-! What one iteration adds to the log: which reports are received and which finish
requests are issued. -/

namespace Tarantula

/-- Nothing is received and no finish is asked between the two logs. -/
structure Silent (log log' : List Act) : Prop where
  received : ∀ mt, .received mt ∈ log' ↔ .received mt ∈ log
  askFinish : ∀ mt, .askFinish mt ∈ log' ↔ .askFinish mt ∈ log

namespace Silent

theorem refl (log : List Act) : Silent log log := ⟨fun _ => .rfl, fun _ => .rfl⟩

theorem append (log acts : List Act) (hr : ∀ mt, .received mt ∉ acts)
    (ha : ∀ mt, .askFinish mt ∉ acts) : Silent log (acts ++ log) :=
  ⟨fun mt => by simp [hr], fun mt => by simp [ha]⟩

variable {log log' : List Act}

theorem receivedAny (h : Silent log log') (p : Meta → Bool) :
    receivedAny p log' = Tarantula.receivedAny p log := by
  rw [Bool.eq_iff_iff, receivedAny_iff, receivedAny_iff]
  simp only [h.received]

theorem askedAny (h : Silent log log') (p : Meta → Bool) :
    askedAny p log' = Tarantula.askedAny p log := by
  rw [Bool.eq_iff_iff, askedAny_iff, askedAny_iff]
  simp only [h.askFinish]

end Silent

namespace TaskManager

variable {dir : Directory} {m m' : TaskManager}

theorem silent_start (m : TaskManager) (ref : Ref) : Silent m.log (m.start ref).log := by
  refine .append m.log (.started (m.heap ref).mt.id ::
    (Wellformed.startedJob (m.heap ref)).transactions.map fun tc => Act.askReserve tc.mt).reverse ?_ ?_
  · simp
  · simp

theorem silent_reloaded {k : Nat} {loaded : Option (Task × Nat)} {r : Option TaskResource}
    (hr : Reloaded m k loaded m' r) : Silent m.log m'.log := by
  cases hr with
  | failed => exact .refl _
  | jobless => exact .refl _
  | @started task rev tr ref rest =>
    have hs := silent_start (((m.introduce k task tr).readyJob tr ref).note [.updateTask tr.mt.id]) ref
    exact ⟨fun mt => (hs.received mt).trans (by simp [note, readyJob, writeMeta, introduce, putTask, alloc]),
      fun mt => (hs.askFinish mt).trans (by simp [note, readyJob, writeMeta, introduce, putTask, alloc])⟩

theorem silent_find {mt : Meta} {loaded : Option (Task × Nat)} {r : Option TaskResource}
    (hf : m.find mt loaded = some (m', r)) : Silent m.log m'.log := by
  rcases find_cases hf with ⟨rfl, -⟩ | ⟨-, hr⟩
  · exact .refl _
  · exact silent_reloaded hr

theorem silent_or_handled {e : Event} (hw : Waited m e m') :
    Silent m.log m'.log ∨ ∃ mt loaded m₁ tr, e = .update mt loaded ∧ mt.state ≠ .taskClear ∧
      m.find mt loaded = some (m₁, some tr) ∧ tr.mt.state ≠ .finished ∧ Handled m₁ mt m' := by
  cases hw with
  | idle => exact .inl (.refl _)
  | recovered _ hr => exact .inl (silent_reloaded hr)
  | task => exact .inl (.append m.log [_] (by simp) (by simp))
  | job => exact .inl (silent_start _ _)
  | clear =>
    unfold clearResource
    split <;> exact .inl (.refl _)
  | unloaded _ hr => exact .inl (silent_reloaded hr)
  | handled hc hf hne hh => exact .inr ⟨_, _, _, _, rfl, hc, hf, hne, hh⟩

def Completes (m : TaskManager) (mt : Meta) : Prop :=
  mt.state = .confirmed ∧ ∃ tj ∈ m.tjs[mt.jobId]?, ∃ t ∈ tj.joining[mt.id]?,
    t.confirmed = 0 ∧ tj.joinParties = tj.confirmed + 1

/-- What handling `mt` adds to the log: the report itself, resent finish requests, and
those of the decision it causes. -/
structure Adds (m : TaskManager) (mt : Meta) (acts : List Act) : Prop where
  received : ∀ mt', .received mt' ∈ acts → mt' = mt ∧ (m.tjs[mt.jobId]?).isSome
  report : mt.state = .confirmed → .received mt ∈ acts
  askFinish : ∀ tc, .askFinish tc ∈ acts → .askFinish tc ∈ m.log ∨
    tc.jobId = mt.jobId ∧ tc.state = mt.state ∧ (mt.state = .canceled ∨ Completes m mt)

theorem timeout_adds (ht : Timers m) {key : Nat} {mt : Meta} (h : m.timeout key mt = some m') :
    ∃ acts, m'.log = acts ++ m.log ∧ (∀ mt', .received mt' ∉ acts) ∧
      ∀ tc, .askFinish tc ∈ acts → .askFinish tc ∈ m.log := by
  cases timeout_cases h with
  | absent => exact ⟨[], rfl, by simp, by simp⟩
  | last => exact ⟨[], rfl, by simp, by simp⟩
  | @resend tm p m₁ htm hp hr =>
    obtain ⟨tjs, rfl⟩ := retried_eq hr
    obtain ⟨tc, htc, -, ha⟩ := (ht key tm htm).tc p hp
    refine ⟨[p.ask tc.mt], retry_log htc, ?_⟩
    cases p with
    | reserve ref i => simp [Retrying.ask]
    | finish ref i => simpa [Retrying.ask] using mem_of_mem_history (ha rfl)

theorem handled_adds (hw : Wellformed dir m) (ht : Timers m) {mt : Meta} (h : Handled m mt m') :
    ∃ acts, m'.log = acts ++ m.log ∧ Adds m mt acts := by
  cases h with
  | duplicate hj => exact ⟨[.received mt], rfl, by simp [hj], by simp, by simp⟩
  | confirm hj => exact ⟨[.received mt], rfl, by simp [hj], by simp, by simp⟩
  | @confirmLast tj t hj htj hs hf hl =>
    have hc := Frame.counted { t with confirmed := t.confirmed + 1 } hj htj rfl
    obtain ⟨-, asks, ha, hlog⟩ := confirmed_decision (hw.of_frame hc) mt.jobId
      (tj.count mt.id { t with confirmed := t.confirmed + 1 }) (by simp [counted, putJob])
    refine ⟨(asks.map Act.askFinish).reverse ++ [.confirmed mt.jobId, .received mt],
      by rw [hlog, List.append_assoc]; rfl, by simp [hj], by simp, fun tc htc => ?_⟩
    have hmem : tc ∈ asks := by simpa using htc
    exact .inr ⟨ha.job tc hmem, by rw [ha.state tc hmem, hs], .inr ⟨hs, tj, hj, t, htj, hf, hl⟩⟩
  | finish hj => exact ⟨[.received mt], rfl, by simp [hj], by simp, by simp⟩
  | finishLast hj htj hs hf hl hm =>
    obtain ⟨-, acts, hlog, hacts⟩ := finished_log hm
    refine ⟨acts ++ [.finished mt.jobId, .received mt], by rw [hlog, List.append_assoc]; rfl, ?_⟩
    rcases hacts with ⟨T, rfl⟩ | ⟨T, rfl⟩ <;> exact ⟨by simp [hj], by simp, by simp⟩
  | cancel hj hs hm =>
    obtain ⟨-, -, -, asks, ha, hlog⟩ := canceled_decision (hw.of_frame (.receive m mt)) hj hm
    refine ⟨(asks.map Act.askFinish).reverse ++ [.canceled mt.jobId, .received mt],
      by rw [hlog, List.append_assoc]; rfl, by simp [hj], by simp, fun tc htc => ?_⟩
    have hmem : tc ∈ asks := by simpa using htc
    exact .inr ⟨ha.job tc hmem, by rw [ha.state tc hmem, hs], .inl hs⟩
  | timeout hs hm =>
    obtain ⟨acts, hlog, hr, ha⟩ := timeout_adds ht hm
    exact ⟨acts, hlog, fun _ h => absurd h (hr _), by simp [hs], fun tc h => .inl (ha tc h)⟩
  | jobTimeout hs hm =>
    obtain ⟨acts, hlog, hr, ha⟩ := timeout_adds ht hm
    exact ⟨acts, hlog, fun _ h => absurd h (hr _), by simp [hs], fun tc h => .inl (ha tc h)⟩
  | stop hs hm hj he =>
    obtain ⟨acts, hlog, hr, ha⟩ := timeout_adds ht hm
    obtain ⟨-, T, hlog'⟩ := stop_log he
    refine ⟨[.ended T, .updateTask T, .stopped mt.jobId] ++ acts, by rw [hlog', hlog]; rfl, ?_⟩
    exact ⟨by simp [hr], by simp [hs], fun tc h => .inl (ha tc (by simpa using h))⟩
  | ignored hs => exact ⟨[], rfl, by simp, by simp [hs.1], by simp⟩

end TaskManager

end Tarantula
