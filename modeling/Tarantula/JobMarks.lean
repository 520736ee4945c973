import Mathlib.Data.List.Nodup
import Tarantula.Reservations

/-! The jobs of a task as an iteration of `Wait` moves them: which are started, finished or
canceled, and which one is queued. Every step is said once, from the side of one unfinished
task. -/

namespace Tarantula

def since (k : Nat) (log : List Act) : List Act := log.takeWhile (· ≠ .started k)

theorem since_append {k : Nat} {acts : List Act} (log : List Act) (h : .started k ∉ acts) :
    since k (acts ++ log) = acts ++ since k log := by
  refine List.takeWhile_append_of_pos fun a ha => ?_
  simpa using fun he : a = .started k => h (he ▸ ha)

theorem since_started (k : Nat) (log : List Act) : since k (.started k :: log) = [] := by
  simp [since]

theorem finished_mem_history {k : Nat} {log : List Act} :
    .finished k ∈ history k log ↔ .finished k ∈ since k log := by
  simp [history, since, Act.concerns]

structure Marks where
  started : Bool
  finished : Bool
  canceled : Bool
  deriving DecidableEq, Repr

namespace TaskManager

def marks (m : TaskManager) (k : Nat) : Marks :=
  ⟨(m.tjs[k]?).isSome, decide (.finished k ∈ since k m.log), decide (.canceled k ∈ since k m.log)⟩

def jobId (m : TaskManager) (r : Ref) : Nat := (m.heap r).mt.id

def Full (m : TaskManager) (k : Nat) : Prop := ∀ tj ∈ m.tjs[k]?, tj.joinParties ≤ tj.confirmed

def queue (m : TaskManager) (tr : TaskResource) : List Ref := m.jobs.filter (· ∈ tr.refs)

variable {dir : Directory} {m m' : TaskManager}

section Marks

theorem marks_of_acts {k : Nat} {acts : List Act} (hj : (m'.tjs[k]?).isSome = (m.tjs[k]?).isSome)
    (hl : m'.log = acts ++ m.log) (hs : .started k ∉ acts) :
    m'.marks k = ⟨(m.marks k).started, decide (.finished k ∈ acts) || (m.marks k).finished,
      decide (.canceled k ∈ acts) || (m.marks k).canceled⟩ := by
  simp only [marks, hj, hl, since_append m.log hs, List.mem_append, Bool.decide_or]

theorem marks_of_silent {k : Nat} {acts : List Act} (hj : (m'.tjs[k]?).isSome = (m.tjs[k]?).isSome)
    (hl : m'.log = acts ++ m.log) (hs : .started k ∉ acts) (hf : .finished k ∉ acts)
    (hc : .canceled k ∉ acts) : m'.marks k = m.marks k := by
  rw [marks_of_acts hj hl hs]
  simp [hf, hc]

theorem started_of_frame (hf : Frame m m') (k : Nat) :
    (m'.tjs[k]?).isSome = (m.tjs[k]?).isSome := by
  rw [← Option.isSome_map, hf.tjs, Option.isSome_map]

theorem marks_start (m : TaskManager) (ref : Ref) (k : Nat) :
    (m.start ref).marks k = if m.jobId ref = k then ⟨true, false, false⟩ else m.marks k := by
  have hsince : since k (m.start ref).log = ((Wellformed.startedJob (m.heap ref)).transactions.map
      fun tc => Act.askReserve tc.mt).reverse ++ since k (.started (m.heap ref).mt.id :: m.log) := by
    rw [Wellformed.start_log, since_append _ (by simp)]
  split
  · next he =>
    have he : (m.heap ref).mt.id = k := he
    rw [he, since_started, List.append_nil] at hsince
    simp only [marks, hsince, he, Wellformed.start_tjs, ExtMap.getElem?_insert, if_true]
    simp
  · next he =>
    have hne : (m.heap ref).mt.id ≠ k := he
    have hcons : since k (.started (m.heap ref).mt.id :: m.log) =
        .started (m.heap ref).mt.id :: since k m.log := by
      simp [since, hne]
    simp only [marks, hsince, hcons, Wellformed.start_tjs, ExtMap.getElem?_insert, if_neg hne]
    simp

theorem marks_of_canceled {j : Nat}
    (hm : ∀ k, m'.marks k = if j = k then { m.marks k with canceled := true } else m.marks k) (k : Nat) :
    (m'.marks k).started = (m.marks k).started ∧ (m'.marks k).finished = (m.marks k).finished := by
  rw [hm]
  split <;> exact ⟨rfl, rfl⟩

end Marks

/-- What the handling of a report does to the tasks, to the queue and to the marks. -/
inductive Effect (dir : Directory) (m : TaskManager) (mt : Meta) (m' : TaskManager) : Prop
  | calm (hs : mt.state ≠ .canceled) (htrs : m'.trs = m.trs) (hjobs : m'.jobs = m.jobs)
      (hm : ∀ k, m'.marks k = m.marks k)
  | cancel {tj tr} (hs : mt.state = .canceled) (hj : m.tjs[mt.jobId]? = some tj)
      (htr : m.trs[dir.task mt.jobId]? = some tr)
      (htrs : m'.trs = m.trs.insert (dir.task mt.jobId)
        { tr with jobIndex := tr.pending.length, canceled := true })
      (hjobs : m'.jobs = m.jobs)
      (hm : ∀ k, m'.marks k = if mt.jobId = k then { m.marks k with canceled := true } else m.marks k)
  | next {tj tr ref} (hf : LastFinished m mt tj) (htr : m.trs[dir.task mt.jobId]? = some tr)
      (hp : tr.pending[tr.jobIndex + 1]? = some ref)
      (htrs : m'.trs = m.trs.insert (dir.task mt.jobId) { tr with jobIndex := tr.jobIndex + 1 })
      (hjobs : m'.jobs = m.jobs ++ [ref])
      (hm : ∀ k, m'.marks k = if mt.jobId = k then { m.marks k with finished := true } else m.marks k)
      (hfull : m'.Full mt.jobId)
  | finish {tj tr} (hf : LastFinished m mt tj) (htr : m.trs[dir.task mt.jobId]? = some tr)
      (hp : tr.pending[tr.jobIndex + 1]? = none)
      (htrs : m'.trs = m.trs.insert (dir.task mt.jobId) { tr with mt := { tr.mt with state := .finished } })
      (hjobs : m'.jobs = m.jobs)
      (hm : ∀ k, m'.marks k = if mt.jobId = k then { m.marks k with finished := true } else m.marks k)
  | stop {tr} (hs : mt.state = .jobTimeout) (htr : m.trs[dir.task mt.jobId]? = some tr)
      (htrs : m'.trs = m.trs.insert (dir.task mt.jobId)
        { tr with mt := { tr.mt with state := .finished }, canceled := true })
      (hjobs : m'.jobs = m.jobs) (hm : ∀ k, m'.marks k = m.marks k)

theorem timeout_asks {key : Nat} {mt : Meta} (h : m.timeout key mt = some m') :
    ∃ acts, m'.log = acts ++ m.log ∧ ∀ a ∈ acts, (∃ tc, a = .askReserve tc) ∨ ∃ tc, a = .askFinish tc := by
  cases timeout_cases h with
  | absent => exact ⟨[], rfl, by simp⟩
  | last => exact ⟨[], rfl, by simp⟩
  | @resend tm p m₁ htm hp hr =>
    obtain ⟨tjs, rfl⟩ := retried_eq hr
    cases p with
    | reserve ref i =>
      refine ⟨_, rfl, fun a ha => .inl ?_⟩
      obtain ⟨tc, _, rfl⟩ := List.mem_map.mp (List.mem_reverse.mp ha)
      exact ⟨_, rfl⟩
    | finish ref i =>
      refine ⟨_, rfl, fun a ha => .inr ?_⟩
      obtain ⟨tc, _, rfl⟩ := List.mem_map.mp (List.mem_reverse.mp ha)
      exact ⟨_, rfl⟩

theorem timeout_marks {key : Nat} {mt : Meta} (h : m.timeout key mt = some m') (k : Nat) :
    m'.marks k = m.marks k := by
  obtain ⟨acts, hl, hacts⟩ := timeout_asks h
  have hnot : ∀ a ∈ acts, a ≠ .started k ∧ a ≠ .finished k ∧ a ≠ .canceled k := by
    intro a ha
    rcases hacts a ha with ⟨tc, rfl⟩ | ⟨tc, rfl⟩ <;> simp
  exact marks_of_silent (started_of_frame (.timeout h) k) hl (fun h => (hnot _ h).1 rfl)
    (fun h => (hnot _ h).2.1 rfl) fun h => (hnot _ h).2.2 rfl

theorem finished_effect (hw : Wellformed dir m) {mt : Meta} {tj : JobResource} {t : TransactionResource}
    (hj : m.tjs[mt.jobId]? = some tj) (ht : tj.joining[mt.id]? = some t) (hs : mt.state = .finished)
    (hf : t.finished = 0) (hl : tj.joinParties = tj.confirmed + 1)
    (h : (m.counted mt tj t { t with finished := t.finished + 1 }).finished mt.jobId
      (tj.count mt.id { t with finished := t.finished + 1 }) = some m') : Effect dir m mt m' := by
  have hlast : LastFinished m mt tj := ⟨hj, hs, hl, t, ht, hf⟩
  have hframe := (Frame.counted { t with finished := t.finished + 1 } hj ht rfl).trans (Frame.finished h)
  have hmarks : ∀ {acts : List Act}, m'.log = acts ++ m.log → (∀ j, .started j ∉ acts) →
      (∀ k, .finished k ∈ acts ↔ mt.jobId = k) → (∀ k, .canceled k ∉ acts) →
      ∀ k, m'.marks k = if mt.jobId = k then { m.marks k with finished := true } else m.marks k := by
    intro acts hlog hst hfin hcan k
    rw [marks_of_acts (started_of_frame hframe k) hlog (hst k)]
    by_cases hk : mt.jobId = k <;> simp [hfin k, hcan k, hk]
  obtain ⟨tr, htr, ⟨ref, hn, htrs, hjobs, hlog⟩ | ⟨hn, htrs, hjobs, hlog⟩⟩ := finished_last hw hj ht h
  · refine .next hlast htr hn htrs hjobs (hmarks hlog (by simp) (by simp [eq_comm]) (by simp)) ?_
    intro tj' htj'
    rw [(finished_log h).1] at htj'
    have hj' : (m.counted mt tj t { t with finished := t.finished + 1 }).tjs[mt.jobId]? =
        some (tj.count mt.id { t with finished := t.finished + 1 }) := by simp [counted, putJob]
    obtain rfl := Option.some.inj (hj'.symm.trans htj')
    exact Nat.le_of_eq hl
  · exact .finish hlast htr hn htrs hjobs (hmarks hlog (by simp) (by simp [eq_comm]) (by simp))

theorem stop_effect (hw : Wellformed dir m) {mt : Meta} {m₁ : TaskManager} {tj : JobResource}
    (hs : mt.state = .jobTimeout) (hm : m.timeout mt.jobId mt = some m₁)
    (hj : m₁.tjs[mt.jobId]? = some tj) (he : m₁.stop mt.jobId tj = some m') : Effect dir m mt m' := by
  obtain ⟨htrs, hjobs, -, -⟩ := timeout_keeps hm
  have htask := (hw.of_frame (.timeout hm)).taskId hj
  have hframe := Frame.stop hj he
  obtain ⟨tr, m₂, htr, hm₂, rfl⟩ := stop_cases he
  have h₂ : m₂.trs = m₁.trs ∧ m₂.jobs = m₁.jobs ∧ m₂.log = m₁.log := by
    rw [hm₂]
    split <;> exact ⟨rfl, rfl, rfl⟩
  rw [htask] at htr
  have hlog := congrArg ([Act.ended tr.mt.id, .updateTask tr.mt.id, .stopped mt.jobId] ++ ·) h₂.2.2
  refine .stop hs (htrs ▸ htr) ?_ (h₂.2.1.trans hjobs) fun k => ?_
  · rw [htask, ← htrs, ← h₂.1]
    rfl
  · rw [← timeout_marks hm k]
    exact marks_of_silent (started_of_frame hframe k) hlog (by simp) (by simp) (by simp)

theorem handled_effect (hw : Wellformed dir m) {mt : Meta} (h : Handled m mt m') : Effect dir m mt m' := by
  have hframe := Frame.handled h
  have hcalm : ∀ {acts : List Act}, m'.log = acts ++ m.log → (∀ a ∈ acts, ∀ k,
      a ≠ .started k ∧ a ≠ .finished k ∧ a ≠ .canceled k) → ∀ k, m'.marks k = m.marks k := by
    intro acts hlog hnot k
    exact marks_of_silent (started_of_frame hframe k) hlog (fun h => (hnot _ h k).1 rfl)
      (fun h => (hnot _ h k).2.1 rfl) fun h => (hnot _ h k).2.2 rfl
  have hone : m'.log = [.received mt] ++ m.log → ∀ k, m'.marks k = m.marks k :=
    fun hlog => hcalm hlog (by simp)
  cases h with
  | duplicate _ _ hd =>
    refine .calm ?_ rfl rfl (hone rfl)
    rcases hd with ⟨hs, -⟩ | ⟨hs, -⟩ <;> simp [hs]
  | confirm _ _ hs => exact .calm (by simp [hs]) rfl rfl (hone rfl)
  | @confirmLast tj t hj htj hs =>
    have hc := Frame.counted { t with confirmed := t.confirmed + 1 } hj htj rfl
    obtain ⟨-, asks, -, hlog⟩ := confirmed_decision (hw.of_frame hc) mt.jobId
      (tj.count mt.id { t with confirmed := t.confirmed + 1 }) (by simp [counted, putJob])
    have hacts := hlog.trans (List.append_assoc _ [.confirmed mt.jobId, .received mt] m.log).symm
    refine .calm (by simp [hs]) rfl rfl (hcalm hacts fun a ha k => ?_)
    simp only [List.mem_append, List.mem_reverse, List.mem_map, List.mem_cons, List.not_mem_nil,
      or_false] at ha
    rcases ha with ⟨tc, -, rfl⟩ | rfl | rfl <;> simp
  | finish _ _ hs => exact .calm (by simp [hs]) rfl rfl (hone rfl)
  | finishLast hj htj hs hf hl hm => exact finished_effect hw hj htj hs hf hl hm
  | @cancel tj _ hj hs hm =>
    obtain ⟨tr, htr, htrs, hjobs, asks, hlog⟩ := canceled_task hw hj hm
    refine .cancel hs hj htr htrs hjobs fun k => ?_
    rw [marks_of_acts (started_of_frame hframe k) hlog (by simp)]
    by_cases hk : mt.jobId = k
    · simp [hk]
    · simp [hk, Ne.symm hk]
  | timeout hs hm =>
    obtain ⟨htrs, hjobs, -⟩ := timeout_keeps hm
    exact .calm (by simp [hs]) htrs hjobs (timeout_marks hm)
  | jobTimeout hs hm =>
    obtain ⟨htrs, hjobs, -⟩ := timeout_keeps hm
    exact .calm (by simp [hs]) htrs hjobs (timeout_marks hm)
  | stop hs hm hj he => exact stop_effect hw hs hm hj he
  | ignored hs => exact .calm hs.2.1 rfl rfl fun _ => rfl

end TaskManager

end Tarantula
