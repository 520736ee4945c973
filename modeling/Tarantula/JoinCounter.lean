import Tarantula.JobCounting
import Tarantula.Runs

/-! The join counter of a job: which reports it counts in each phase, and when the
job is completed. -/

namespace Tarantula

/-- What the counter of a started job stands for. While the job is not completed it
counts the `CONFIRMED` reports since the start until `AskFinish` is issued, and the
`FINISHED` ones after that; the job is completed when the last of these arrives. -/
structure JoinCounter (dir : Directory) (k : Nat) (tj : JobResource) (h : List Act) : Prop where
  reserving : .finished k ∉ h → decided k h = false → tj.confirmed = reports dir k .confirmed h
  finishing : .finished k ∉ h → decided k h = true → tj.confirmed = reports dir k .finished h
  completed : .finished k ∈ h ↔
    dir.txs k ≠ [] ∧ ∀ id ∈ dir.txs k, reported k id .finished h = true

/-- A report to a job that is not completed comes in its phase: the first `CONFIRMED`
of a transaction before any `AskFinish`, the first `FINISHED` after one, and a
`CANCELED` before any `FINISHED`. -/
def Timely (dir : Directory) (k : Nat) (h : List Act) (mt : Meta) : Prop :=
  .finished k ∉ h →
    (mt.state = .confirmed → reported k mt.id .confirmed h = true ∨ decided k h = false) ∧
    (mt.state = .finished → reported k mt.id .finished h = true ∨ decided k h = true) ∧
    (mt.state = .canceled → ∀ id ∈ dir.txs k, reported k id .finished h = false)

instance (dir : Directory) (k : Nat) (h : List Act) (mt : Meta) : Decidable (Timely dir k h mt) :=
  inferInstanceAs (Decidable (_ → _))

/-- `G` holds when an update of an unfinished task is handled, after the reload it may
have caused. -/
def OnHandled (G : TaskManager → Meta → Prop) (m : TaskManager) : Event → Prop
  | .update mt loaded => mt.state ≠ .taskClear →
    ∀ p ∈ m.find mt loaded, ∀ tr ∈ p.2, tr.mt.state ≠ .finished → G p.1 mt
  | _ => True

instance (G : TaskManager → Meta → Prop) [∀ m mt, Decidable (G m mt)] (m : TaskManager) :
    ∀ e, Decidable (OnHandled G m e)
  | .update _ _ => inferInstanceAs (Decidable (_ → _))
  | .recovery _ _ => inferInstanceAs (Decidable True)
  | .task _ => inferInstanceAs (Decidable True)
  | .job _ => inferInstanceAs (Decidable True)

theorem OnHandled.trivial (m : TaskManager) (e : Event) : OnHandled (fun _ _ => True) m e := by
  cases e <;> simp [OnHandled]

/-- Events as they occur, with every report timely for its job. -/
def InOrder (dir : Directory) (m : TaskManager) (e : Event) : Prop :=
  e.Numbered dir ∧
    OnHandled (fun m mt => Timely dir mt.jobId (history mt.jobId m.log) mt) m e

instance (dir : Directory) (m : TaskManager) (e : Event) : Decidable (InOrder dir m e) :=
  inferInstanceAs (Decidable (_ ∧ _))

theorem OnHandled.apply {G : TaskManager → Meta → Prop} {m m₁ : TaskManager} {mt : Meta}
    {loaded : Option (Task × Nat)} {tr : TaskResource} (h : OnHandled G m (.update mt loaded))
    (hc : mt.state ≠ .taskClear) (hf : m.find mt loaded = some (m₁, some tr))
    (he : tr.mt.state ≠ .finished) : G m₁ mt :=
  h hc _ hf tr rfl he

/-- The counter in its phase, with the fact that nothing is finished before a decision. -/
structure InPhase (dir : Directory) (k : Nat) (tj : JobResource) (h : List Act) : Prop where
  early : .finished k ∉ h → decided k h = false →
    tj.confirmed = reports dir k .confirmed h ∧
      ∀ id ∈ dir.txs k, reported k id .finished h = false
  late : .finished k ∉ h → decided k h = true → tj.confirmed = reports dir k .finished h
  completed : .finished k ∈ h ↔
    dir.txs k ≠ [] ∧ ∀ id ∈ dir.txs k, reported k id .finished h = true

namespace InPhase

variable {dir : Directory} {k : Nat} {mt : Meta} {tj tj' : JobResource} {h h' : List Act}

theorem same (hp : InPhase dir k tj h) (hc : tj'.confirmed = tj.confirmed)
    (hf : .finished k ∈ h' ↔ .finished k ∈ h)
    (hr : ∀ id st, reported k id st h' = reported k id st h) (ha : decided k h' = decided k h) :
    InPhase dir k tj' h' := by
  refine ⟨?_, ?_, ?_⟩
  · simpa only [hf, ha, hc, reports, hr] using hp.early
  · simpa only [hf, ha, hc, reports, hr] using hp.late
  · simpa only [hf, hr] using hp.completed

theorem reports_eq_zero (hn : ∀ id ∈ dir.txs k, reported k id .finished h = false) :
    reports dir k .finished h = 0 := by
  rw [reports, List.countP_eq_zero]
  simpa using hn

theorem decide (hp : InPhase dir k tj h) {asks : List Meta} {st : TccState} (ha : Asks dir k st asks)
    (hne : dir.txs k ≠ []) (hs : mt.state ≠ .finished)
    (hn : .finished k ∉ h → ∀ id ∈ dir.txs k, reported k id .finished h = false) :
    InPhase dir k { tj' with confirmed := 0 } ((asks.map Act.askFinish).reverse ++ .received mt :: h) := by
  have hd : decided k ((asks.map Act.askFinish).reverse ++ .received mt :: h) = true := by
    rw [decided, askedAny_append, show askedAny _ _ = true from ha.decided hne, Bool.true_or]
  have hf : Act.finished k ∈ (asks.map Act.askFinish).reverse ++ .received mt :: h ↔ Act.finished k ∈ h := by
    simp
  refine ⟨fun _ hd' => by simp [hd] at hd', fun hnot _ => ?_, ?_⟩
  · rw [reports_asks, reports_other hs, reports_eq_zero (hn (hf.not.mp hnot))]
  · simpa only [hf, reported_asks, reported_other hs] using hp.completed

/-- The last report of a state is the one that brings its number to that of the parties. -/
theorem all_reported_iff {st : TccState} (hm : mt.id ∈ dir.txs k) (hk : mt.jobId = k) (hs : mt.state = st)
    (hfirst : reported k mt.id st h = false) :
    (∀ id ∈ dir.txs k, reported k id st (.received mt :: h) = true) ↔
      (dir.txs k).length = reports dir k st h + 1 := by
  rw [← reports_first hk hm hs hfirst, reports, eq_comm, List.countP_eq_length]

/-- The first `FINISHED` of a transaction that is timely comes after the decision, while the job
is not completed. -/
theorem of_first_finished (hp : InPhase dir k tj h) (hin : Timely dir k h mt) (hid : mt.id ∈ dir.txs k)
    (hs : mt.state = .finished) (hfirst : reported k mt.id .finished h = false) :
    .finished k ∉ h ∧ decided k h = true := by
  have hnot : .finished k ∉ h := fun hf => by simp [(hp.completed.mp hf).2 _ hid] at hfirst
  rcases (hin hnot).2.1 hs with hg | hg
  · simp [hfirst] at hg
  · exact ⟨hnot, hg⟩

theorem move (hp : InPhase dir k tj h) (hc : Counting dir k tj h)
    (hmem : ∀ id : Nat, (tj.joining[id]?).isSome ↔ id ∈ dir.txs k)
    (hlen : tj.joinParties = (dir.txs k).length) (hm : JobMove dir k mt tj h tj' h')
    (hin : mt.jobId = k → Timely dir k h mt) : InPhase dir k tj' h' := by
  cases hm with
  | quiet hs hr =>
    refine hp.same hs.confirmed ?_ (fun id st => hr.receivedAny _) (hr.askedAny _)
    rcases hr with rfl | ⟨tc, -, rfl⟩ <;> simp
  | again hk ht hd =>
    exact hp.same rfl (by simp) (reported_duplicate hk (hc.duplicate ht hd)) rfl
  | @confirm t _ hk ht hs hf _ =>
    have hfirst := hc.first_confirmed ht hf
    have hother : ∀ id, reported k id .finished (.received mt :: h) = reported k id .finished h :=
      reported_other (by simp [hs])
    refine ⟨fun hnot hd => ?_, fun hnot hd => ?_, ?_⟩
    · obtain ⟨hcount, hnone⟩ := hp.early (by simpa using hnot) hd
      refine ⟨?_, fun id hid => by rw [hother]; exact hnone id hid⟩
      rw [reports_first hk ((hmem _).mp (by simp [ht])) hs hfirst, ← hcount]
      rfl
    · rcases (hin hk (by simpa using hnot)).1 hs with hg | hg
      · simp [hfirst] at hg
      · exact absurd hd (by simpa [decided] using hg)
    · simpa [hother] using hp.completed
  | @confirmLast t _ asks hk ht hs hf _ ha =>
    have hid := (hmem mt.id).mp (by simp [ht])
    have hfirst := hc.first_confirmed ht hf
    refine hp.decide ha (List.ne_nil_of_mem hid) (by simp [hs]) fun hnot id hid => ?_
    rcases (hin hk hnot).1 hs with hg | hg
    · simp [hfirst] at hg
    · exact (hp.early hnot hg).2 id hid
  | @finish t _ hk ht hs hf hl =>
    have hid := (hmem mt.id).mp (by simp [ht])
    have hfirst := hc.first_finished ht hf
    obtain ⟨hnot, hd⟩ := hp.of_first_finished (hin hk) hid hs hfirst
    have hcount := hp.late hnot hd
    refine ⟨fun _ hd' => by simp [decided] at hd hd'; simp [hd] at hd', fun _ _ => ?_, ?_⟩
    · rw [reports_first hk hid hs hfirst, ← hcount]
      rfl
    · have hlast : (dir.txs k).length ≠ reports dir k .finished h + 1 := by
        rw [← hcount, ← hlen]
        exact hl
      rw [ne_eq, ← all_reported_iff hid hk hs hfirst] at hlast
      simp [hnot, hlast]
  | @finishLast t _ hk ht hs hf hl =>
    have hid := (hmem mt.id).mp (by simp [ht])
    have hfirst := hc.first_finished ht hf
    obtain ⟨hnot, hd⟩ := hp.of_first_finished (hin hk) hid hs hfirst
    have hlast : (dir.txs k).length = reports dir k .finished h + 1 := by
      rw [← hp.late hnot hd, ← hlen]
      exact hl
    rw [← all_reported_iff hid hk hs hfirst] at hlast
    refine ⟨fun hnot => by simp at hnot, fun hnot => by simp at hnot, ?_⟩
    simpa [reported, List.ne_nil_of_mem hid] using hlast
  | cancel hk hs ht hm ha =>
    have hid := (hmem mt.id).mp ht
    exact hp.decide ha (List.ne_nil_of_mem hid) (by simp [hs]) fun hnot => (hin hk hnot).2.2 hs

theorem started (dir : Directory) (ref : Ref) (job : Job) :
    InPhase dir job.mt.id (TaskManager.Wellformed.startedResource ref job) [] := by
  refine ⟨fun _ _ => ⟨?_, fun id _ => rfl⟩, fun _ hd => by simp [decided, askedAny] at hd, ?_⟩
  · simp [TaskManager.Wellformed.startedResource, reports, reported, receivedAny]
  · constructor
    · intro h
      simp at h
    · rintro ⟨hne, hall⟩
      obtain ⟨id, hid⟩ := List.exists_mem_of_ne_nil _ hne
      exact absurd (hall id hid) (by simp [reported, receivedAny])

end InPhase

namespace TaskManager

/-- In every run whose reports are timely, the counter of every started job stands for
what it should in every state, and the job is completed by its last `FINISHED`. -/
theorem join_counter {dir : Directory} {m : TaskManager}
    (h : Reaches wait (InOrder dir) empty m) {k : Nat} {tj : JobResource}
    (hk : m.tjs[k]? = some tj) : JoinCounter dir k tj (history k m.log) := by
  have hinv : Sound dir m ∧ Jobwise (InPhase dir) m := by
    refine Reaches.invariant (I := fun m => Sound dir m ∧ Jobwise (InPhase dir) m) h
      ⟨.empty dir, fun k tj hk => by simp [empty] at hk⟩ ?_
    rintro s e t ⟨hs, hp⟩ ⟨he, hg⟩ hstep
    have hw := wait_cases hstep
    refine ⟨hs.waited he hw, hp.waited hs.wellformed hs.timers he hw
      (fun ref job _ => .started dir ref job) ?_⟩
    rintro mt loaded m₁ tr rfl hc hf hne k tj tj' h' hj hent hphase hmove
    refine hphase.move ((hs.find he hf).counting k tj hj) hent.mem hent.parties hmove ?_
    rintro rfl
    exact hg.apply hc hf hne
  have hp := hinv.2 k tj hk
  exact ⟨fun hnot hd => (hp.early hnot hd).1, hp.late, hp.completed⟩

/-- Job 2 with both transactions confirmed and one of them finished. -/
theorem join_counter_sample :
    ∃ m tj, Reaches wait (InOrder sampleDirectory) empty m ∧ m.tjs[2]? = some tj ∧
      tj.confirmed = 1 ∧ JoinCounter sampleDirectory 2 tj (history 2 m.log) := by
  obtain ⟨m, hm, hs⟩ := exists_reaches_of_checkedRun wait (InOrder sampleDirectory)
    (fun m => m.tjs[2]?.map (·.confirmed) = some 1) empty
    [.task sampleTask, .job 0, .update (sampleMeta 2 3 .confirmed) none,
      .update (sampleMeta 2 4 .confirmed) none, .update (sampleMeta 2 3 .finished) none] (by decide)
  obtain ⟨tj, hj, hc⟩ := Option.map_eq_some_iff.mp hs
  exact ⟨m, tj, hm, hj, hc, join_counter hm hj⟩

/-- A `CONFIRMED` that arrives after the cancel of its job is counted as a `FINISHED`:
job 2 is completed although transaction 4 never reported `FINISHED`. -/
theorem join_counter_fails_after_cancel :
    ∃ m tj, Reaches wait (fun _ e => e.Numbered sampleDirectory) empty m ∧
      m.tjs[2]? = some tj ∧ ¬ JoinCounter sampleDirectory 2 tj (history 2 m.log) := by
  obtain ⟨m, hm, hs, hfin, hnot⟩ := exists_reaches_of_checkedRun wait
    (fun _ e => e.Numbered sampleDirectory)
    (fun m => (m.tjs[2]?).isSome ∧ .finished 2 ∈ history 2 m.log ∧
      reported 2 4 .finished (history 2 m.log) = false) empty
    [.task sampleTask, .job 0, .update (sampleMeta 2 3 .canceled) none,
      .update (sampleMeta 2 4 .confirmed) none, .update (sampleMeta 2 3 .finished) none] (by decide)
  obtain ⟨tj, hj⟩ := Option.isSome_iff_exists.mp hs
  refine ⟨m, tj, hm, hj, fun hc => ?_⟩
  have hall := (hc.completed.mp hfin).2 4 (by decide)
  simp [hnot] at hall

end TaskManager

end Tarantula
