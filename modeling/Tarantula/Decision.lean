import Tarantula.JoinCounter
import Tarantula.LogMoves

/-! The coordinator together with the participants of its jobs, and the agreement of
its decisions. -/

namespace Tarantula

/-- `ClusterManager.handleTranstion`: the report a participant sends for a delivered
transaction, `err` being the error of its handler. -/
def handleTranstion (nodeId tag : String) (err : Option String) (mt : Meta) : Option Meta :=
  let t := { mt with nodeId := nodeId, tag := tag }
  match err with
  | some description => some { t with state := .canceled, description := description }
  | none =>
    match mt.state with
    | .reserving => some { t with state := .confirmed }
    | .confirmed => some { t with state := .finished }
    | .canceled => some { t with state := .finished }
    | _ => none

/-- What `AskReserve` and `AskFinish` hand to the participant. -/
def delivered : Act → Option Meta
  | .askReserve mt => some { mt with state := .reserving }
  | .askFinish mt => some mt
  | _ => none

/-- The coordinator and every report sent so far. A report may be received late,
repeatedly or never, so none is taken out. -/
structure System where
  tm : TaskManager
  net : List Meta

inductive SystemEvent
  | answer (request : Act) (nodeId tag : String) (err : Option String)
  | event (e : Event)

namespace System

def initial : System := ⟨.empty, []⟩

def step (s : System) : SystemEvent → Option System
  | .answer request nodeId tag err =>
    some { s with net := ((delivered request).bind (handleTranstion nodeId tag err)).toList ++ s.net }
  | .event e => (s.tm.wait e).map fun tm => { s with tm := tm }

def isReport (mt : Meta) : Bool :=
  mt.state == .confirmed || mt.state == .canceled || mt.state == .finished

/-- Participants answer requests that were issued, and the coordinator receives
reports that were sent. -/
def Possible (dir : Directory) (s : System) : SystemEvent → Prop
  | .answer request _ _ _ => request ∈ s.tm.log
  | .event (.update mt loaded) =>
    Event.Numbered dir (.update mt loaded) ∧ (isReport mt = true → mt ∈ s.net)
  | .event e => e.Numbered dir

instance (dir : Directory) (s : System) : ∀ e, Decidable (Possible dir s e)
  | .answer _ _ _ _ => inferInstanceAs (Decidable (_ ∈ _))
  | .event (.update _ _) => inferInstanceAs (Decidable (_ ∧ _))
  | .event (.recovery k loaded) => inferInstanceAs (Decidable (Event.Numbered dir (.recovery k loaded)))
  | .event (.task t) => inferInstanceAs (Decidable (Event.Numbered dir (.task t)))
  | .event (.job i) => inferInstanceAs (Decidable (Event.Numbered dir (.job i)))

end System

def askedAs (j : Nat) (st : TccState) : List Act → Bool :=
  askedAny fun mt => mt.jobId == j && mt.state == st

/-- The decision on job `j` is one decision, and it is to confirm only once every
transaction has reported `CONFIRMED`. -/
structure Agreement (dir : Directory) (j : Nat) (log : List Act) : Prop where
  exclusive : askedAs j .confirmed log = true → askedAs j .canceled log = false
  unanimous : askedAs j .confirmed log = true →
    ∀ id ∈ dir.txs j, reported j id .confirmed log = true

/-- The report does not contradict the decision taken on its job: a `CANCELED` comes
before any request to confirm, and the `CONFIRMED` that completes the join before any
request to cancel. -/
def Consistent (m : TaskManager) (mt : Meta) : Prop :=
  (mt.state = .canceled → askedAs mt.jobId .confirmed m.log = false) ∧
    (mt.state = .confirmed → ∀ tj ∈ m.tjs[mt.jobId]?, ∀ t ∈ tj.joining[mt.id]?,
      t.confirmed = 0 → tj.joinParties = tj.confirmed + 1 →
        askedAs mt.jobId .canceled m.log = false)

instance (m : TaskManager) (mt : Meta) : Decidable (Consistent m mt) :=
  inferInstanceAs (Decidable (_ ∧ _))

theorem askedAs_iff {j : Nat} {st : TccState} {log : List Act} :
    askedAs j st log = true ↔ ∃ mt, .askFinish mt ∈ log ∧ mt.jobId = j ∧ mt.state = st := by
  simp [askedAs, askedAny_iff]

/-- A request to finish carries a decision, and `FINISHED` answers such a request. -/
structure Answered (s : System) : Prop where
  asked : ∀ mt, .askFinish mt ∈ s.tm.log → mt.state = .confirmed ∨ mt.state = .canceled
  sent : ∀ mt ∈ s.net, mt.state = .finished → decided mt.jobId s.tm.log = true
  received : ∀ mt, .received mt ∈ s.tm.log → mt.state = .finished →
    decided mt.jobId s.tm.log = true

theorem handleTranstion_finished {nodeId tag : String} {err : Option String} {mt mt' : Meta}
    (h : handleTranstion nodeId tag err mt = some mt') (hs : mt'.state = .finished) :
    mt'.jobId = mt.jobId ∧ mt.state ≠ .reserving := by
  unfold handleTranstion at h
  cases err with
  | some d =>
    cases h
    simp at hs
  | none =>
    cases hst : mt.state <;> simp only [hst] at h <;> cases h <;> simp_all

namespace TaskManager

variable {dir : Directory} {m m' : TaskManager}

/-- The join that asks to confirm has seen every transaction confirm, as long as no
transaction of the job could finish before. -/
theorem unanimous_of_completes (hw : Wellformed dir m) (hc : Jobwise (Counting dir) m) {mt : Meta}
    (h : Completes m mt) (hd : decided mt.jobId m.log = false)
    (hf : ∀ id, reported mt.jobId id .finished m.log = false) :
    ∀ id ∈ dir.txs mt.jobId, reported mt.jobId id .confirmed (.received mt :: m.log) = true := by
  obtain ⟨hs, tj, hj, t, ht, hzero, hl⟩ := h
  have hent := hw.job _ tj hj
  have hcount := hc _ tj hj
  have hsub : ∀ id st, reported mt.jobId id st (history mt.jobId m.log) = true →
      reported mt.jobId id st m.log = true := by
    intro id st hr
    obtain ⟨mt', hmem, hp⟩ := reported_iff.mp hr
    exact reported_iff.mpr ⟨mt', mem_of_mem_history hmem, hp⟩
  have hd' : decided mt.jobId (history mt.jobId m.log) = false := by
    rw [Bool.eq_false_iff, ne_eq, decided_iff]
    rintro ⟨tc, htc, hp⟩
    rw [Bool.eq_false_iff, ne_eq, decided_iff] at hd
    exact hd ⟨tc, mem_of_mem_history htc, hp⟩
  have hzero' : reports dir mt.jobId .finished (history mt.jobId m.log) = 0 := by
    refine InPhase.reports_eq_zero fun id _ => ?_
    rw [Bool.eq_false_iff]
    intro hr
    have hr' := hsub id _ hr
    simp [hf id] at hr'
  have hmem := (hent.mem mt.id).mp (by rw [Option.mem_def.mp ht]; rfl)
  have hfull : reports dir mt.jobId .confirmed (.received mt :: history mt.jobId m.log) =
      (dir.txs mt.jobId).length := by
    rw [reports_first rfl hmem hs (hcount.first_confirmed ht hzero), ← hent.parties, hl,
      hcount.counter hd', hzero']
  intro id hid
  have hall := List.countP_eq_length.mp hfull id hid
  rw [reported_received rfl] at hall ⊢
  rcases Bool.or_eq_true_iff.mp hall with hx | hx
  · rw [hx, Bool.true_or]
  · rw [hsub id _ hx, Bool.or_true]

end TaskManager

theorem Agreement.silent {dir : Directory} {j : Nat} {log log' : List Act} (hs : Silent log log')
    (h : Agreement dir j log) : Agreement dir j log' := by
  refine ⟨?_, ?_⟩
  · simpa only [askedAs, hs.askedAny] using h.exclusive
  · simpa only [askedAs, hs.askedAny, reported, hs.receivedAny] using h.unanimous

/-- The decisions of handling `mt` agree with those before, if `mt` is consistent with them. -/
theorem Agreement.adds {dir : Directory} {j : Nat} {m : TaskManager} {mt : Meta} {acts : List Act}
    (h : Agreement dir j m.log) (hc : Consistent m mt) (ha : m.Adds mt acts)
    (hu : m.Completes mt → askedAs mt.jobId .confirmed m.log = false →
      ∀ id ∈ dir.txs mt.jobId, reported mt.jobId id .confirmed (.received mt :: m.log) = true) :
    Agreement dir j (acts ++ m.log) := by
  -- a request of the new log is an old one or belongs to the decision `mt` causes
  have hsplit : ∀ {st}, askedAs j st (acts ++ m.log) = true → askedAs j st m.log = true ∨
      mt.jobId = j ∧ mt.state = st ∧ (mt.state = .canceled ∨ m.Completes mt) := by
    intro st hst
    obtain ⟨tc, htc, hj, hs⟩ := askedAs_iff.mp hst
    rcases List.mem_append.mp htc with htc | htc
    · rcases ha.askFinish tc htc with hold | ⟨hj', hs', hd⟩
      · exact .inl (askedAs_iff.mpr ⟨tc, hold, hj, hs⟩)
      · exact .inr ⟨hj' ▸ hj, hs' ▸ hs, hd⟩
    · exact .inl (askedAs_iff.mpr ⟨tc, htc, hj, hs⟩)
  have hcomp : mt.state = .confirmed → (mt.state = .canceled ∨ m.Completes mt) →
      m.Completes mt ∧ askedAs mt.jobId .canceled m.log = false := by
    rintro hs (hx | hx)
    · simp [hs] at hx
    · obtain ⟨-, tj, hj, t, ht, hz, hl⟩ := hx
      exact ⟨⟨hs, tj, hj, t, ht, hz, hl⟩, hc.2 hs tj hj t ht hz hl⟩
  refine ⟨fun hconf => ?_, fun hconf id hid => ?_⟩
  · rw [Bool.eq_false_iff]
    intro hcanc
    rcases hsplit hconf with ho | ⟨rfl, hs, hd⟩ <;> rcases hsplit hcanc with ho' | ⟨hj', hs', -⟩
    · simp [h.exclusive ho] at ho'
    · have := hc.1 hs'
      rw [hj'] at this
      simp [ho] at this
    · simp [(hcomp hs hd).2] at ho'
    · simp [hs] at hs'
  · rcases hsplit hconf with ho | ⟨rfl, hs, hd⟩
    · exact reported_append acts (h.unanimous ho id hid)
    · by_cases hold : askedAs mt.jobId .confirmed m.log = true
      · exact reported_append acts (h.unanimous hold id hid)
      · have hall := hu (hcomp hs hd).1 (by simpa using hold) id hid
        obtain ⟨mt', hmem, hp⟩ := reported_iff.mp hall
        rcases List.mem_cons.mp hmem with he | hmem
        · cases he
          exact reported_iff.mpr ⟨mt, List.mem_append_left _ (ha.report hs), hp⟩
        · exact reported_append acts (reported_iff.mpr ⟨mt', hmem, hp⟩)

theorem Answered.silent {s : System} {m : TaskManager} (hs : Silent s.tm.log m.log)
    (h : Answered s) : Answered { s with tm := m } := by
  refine ⟨?_, ?_, ?_⟩
  · simpa only [hs.askFinish] using h.asked
  · simpa only [decided, hs.askedAny] using h.sent
  · simpa only [decided, hs.askedAny, hs.received] using h.received

theorem Answered.adds {s : System} {m : TaskManager} {mt : Meta} {acts : List Act}
    (h : Answered s) (ha : s.tm.Adds mt acts) (hl : m.log = acts ++ s.tm.log)
    (hnet : System.isReport mt = true → mt ∈ s.net) : Answered { s with tm := m } := by
  have hmono : ∀ {j}, decided j s.tm.log = true → decided j m.log = true :=
    fun hd => hl ▸ decided_append acts hd
  refine ⟨fun tc htc => ?_, fun mt' hmt' hs => hmono (h.sent mt' hmt' hs), fun mt' hmt' hs => ?_⟩
  · rcases List.mem_append.mp (hl ▸ htc) with htc | htc
    · rcases ha.askFinish tc htc with hold | ⟨-, hs, hd⟩
      · exact h.asked tc hold
      · rw [hs]
        rcases hd with hd | hd
        · exact .inr hd
        · exact .inl hd.1
    · exact h.asked tc htc
  · rcases List.mem_append.mp (hl ▸ hmt') with hmt' | hmt'
    · obtain ⟨rfl, -⟩ := ha.received mt' hmt'
      exact hmono (h.sent mt' (hnet (by simp [System.isReport, hs])) hs)
    · exact hmono (h.received mt' hmt' hs)

theorem Answered.answer {s : System} (h : Answered s) {request : Act} (hr : request ∈ s.tm.log)
    (nodeId tag : String) (err : Option String) :
    Answered { s with
      net := ((delivered request).bind (handleTranstion nodeId tag err)).toList ++ s.net } := by
  refine ⟨h.asked, fun mt hmt hs => ?_, h.received⟩
  rcases List.mem_append.mp hmt with hmt | hmt
  · obtain ⟨mt₀, hd, hh⟩ := Option.bind_eq_some_iff.mp (Option.mem_toList.mp hmt)
    obtain ⟨hj, hne⟩ := handleTranstion_finished hh hs
    cases request with
    | askFinish tc =>
      cases hd
      exact decided_iff.mpr ⟨mt₀, hr, hj.symm⟩
    | askReserve tc =>
      cases hd
      exact absurd rfl hne
    | _ => cases hd
  · exact h.sent mt hmt hs

namespace System

/-- A possible step whose report, if it handles one, is consistent with the decision. -/
def Agreeing (dir : Directory) (s : System) : SystemEvent → Prop
  | .answer request nodeId tag err => Possible dir s (.answer request nodeId tag err)
  | .event e => Possible dir s (.event e) ∧ OnHandled Consistent s.tm e

instance (dir : Directory) (s : System) : ∀ e, Decidable (Agreeing dir s e)
  | .answer request _ _ _ => inferInstanceAs (Decidable (request ∈ s.tm.log))
  | .event _ => inferInstanceAs (Decidable (_ ∧ _))

theorem Possible.numbered {dir : Directory} {s : System} {e : Event}
    (h : Possible dir s (.event e)) : e.Numbered dir := by
  cases e with
  | update mt loaded => exact h.1
  | _ => exact h

variable {dir : Directory} {s t : System}

theorem agreement_event {e : Event} (hs : s.tm.Sound dir) (ha : Answered s)
    (hag : ∀ j, Agreement dir j s.tm.log) (hp : Possible dir s (.event e))
    (hg : OnHandled Consistent s.tm e) {m : TaskManager} (hw : s.tm.Waited e m) :
    Answered { s with tm := m } ∧ ∀ j, Agreement dir j m.log := by
  rcases TaskManager.silent_or_handled hw with hsil | ⟨mt, loaded, m₁, tr, rfl, hc, hf, hne, hh⟩
  · exact ⟨ha.silent hsil, fun j => (hag j).silent hsil⟩
  · have hsil := TaskManager.silent_find hf
    have hs₁ := hs.find hp.1 hf
    have ha₁ : Answered { s with tm := m₁ } := ha.silent hsil
    obtain ⟨acts, hl, hadds⟩ := TaskManager.handled_adds hs₁.wellformed hs₁.timers hh
    have hcons := hg.apply hc hf hne
    refine ⟨ha₁.adds hadds hl hp.2, fun j => hl ▸ ((hag j).silent hsil).adds hcons hadds ?_⟩
    -- with no request to confirm and, by consistency, none to cancel, nothing was asked at all
    intro hcomp hconf
    have hcanc : askedAs mt.jobId .canceled m₁.log = false := by
      obtain ⟨hst, tj, hj, t, ht, hz, hl⟩ := hcomp
      exact hcons.2 hst tj hj t ht hz hl
    have hd : decided mt.jobId m₁.log = false := by
      rw [Bool.eq_false_iff, ne_eq, decided_iff]
      rintro ⟨tc, htc, hj⟩
      rcases ha₁.asked tc htc with hst | hst
      · simp [askedAs_iff.mpr ⟨tc, htc, hj, hst⟩] at hconf
      · simp [askedAs_iff.mpr ⟨tc, htc, hj, hst⟩] at hcanc
    refine TaskManager.unanimous_of_completes hs₁.wellformed hs₁.counting hcomp hd fun id => ?_
    rw [Bool.eq_false_iff, ne_eq, reported_iff]
    rintro ⟨mt', hmem, hj, -, hst⟩
    have := ha₁.received mt' hmem hst
    rw [hj] at this
    simp [hd] at this

/-- In every run whose reports are consistent with the decision taken on their job,
the coordinator takes one decision per job, and to confirm only when all confirmed. -/
theorem decision_agreement (h : Reaches step (Agreeing dir) initial s) (j : Nat) :
    Agreement dir j s.tm.log := by
  have hinv : s.tm.Sound dir ∧ Answered s ∧ ∀ j, Agreement dir j s.tm.log := by
    refine Reaches.invariant
      (I := fun s => s.tm.Sound dir ∧ Answered s ∧ ∀ j, Agreement dir j s.tm.log) h ?_ ?_
    · refine ⟨.empty dir, ⟨?_, ?_, ?_⟩, fun j => ⟨?_, ?_⟩⟩ <;>
        simp [initial, TaskManager.empty, askedAs, askedAny]
    · rintro s e t ⟨hs, ha, hag⟩ hok hstep
      cases e with
      | answer request nodeId tag err =>
        cases hstep
        exact ⟨hs, ha.answer hok nodeId tag err, hag⟩
      | event e =>
        obtain ⟨m, hm, rfl⟩ := Option.map_eq_some_iff.mp hstep
        have hw := TaskManager.wait_cases hm
        exact ⟨hs.waited hok.1.numbered hw, agreement_event hs ha hag hok.1 hok.2 hw⟩
  exact hinv.2.2 j

/-- Job 2 of the sample task is confirmed after both of its transactions were. -/
theorem decision_agreement_sample :
    ∃ s, Reaches step (Agreeing sampleDirectory) initial s ∧
      askedAs 2 .confirmed s.tm.log = true ∧ Agreement sampleDirectory 2 s.tm.log := by
  obtain ⟨s, hr, ha⟩ := exists_reaches_of_checkedRun step (Agreeing sampleDirectory)
    (fun s => askedAs 2 .confirmed s.tm.log = true) initial
    [.event (.task sampleTask), .event (.job 0),
      .answer (.askReserve (sampleMeta 2 3 .reserving)) "" "" none,
      .answer (.askReserve (sampleMeta 2 4 .reserving)) "" "" none,
      .event (.update (sampleMeta 2 3 .confirmed) none),
      .event (.update (sampleMeta 2 4 .confirmed) none)] (by decide)
  exact ⟨s, hr, ha, decision_agreement hr 2⟩

/-- The reserve of transaction 3 fails and job 2 is canceled. The `FINISHED` of
transaction 3 and the late `CONFIRMED` of transaction 4 then fill the join counter, and
the job is confirmed as well, without a `CONFIRMED` of transaction 3. -/
theorem decision_splits_on_late_confirm :
    ∃ s, Reaches step (Possible sampleDirectory) initial s ∧
      askedAs 2 .canceled s.tm.log = true ∧ askedAs 2 .confirmed s.tm.log = true ∧
      reported 2 3 .confirmed s.tm.log = false :=
  exists_reaches_of_checkedRun step (Possible sampleDirectory)
    (fun s => askedAs 2 .canceled s.tm.log = true ∧ askedAs 2 .confirmed s.tm.log = true ∧
      reported 2 3 .confirmed s.tm.log = false) initial
    [.event (.task sampleTask), .event (.job 0),
      .answer (.askReserve (sampleMeta 2 3 .reserving)) "" "" (some ""),
      .answer (.askReserve (sampleMeta 2 4 .reserving)) "" "" none,
      .event (.update (sampleMeta 2 3 .canceled) none),
      .answer (.askFinish (sampleMeta 2 3 .canceled)) "" "" none,
      .event (.update (sampleMeta 2 3 .finished) none),
      .event (.update (sampleMeta 2 4 .confirmed) none)] (by decide)

end System

end Tarantula
