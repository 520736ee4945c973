import Tarantula.Settings
import Tarantula.TimerSteps

/-! Retransmission. As long as a transaction owes the report of the current phase of its
job, its timer resends the request of that phase or has resent it as often as it may. -/

namespace Tarantula

/-- The acts with which a phase of job `k` begins. -/
def Act.turns (k : Nat) : Act → Bool
  | .started j | .confirmed j | .canceled j => j == k
  | _ => false

def phase (k : Nat) (log : List Act) : List Act := log.takeWhile fun a => !a.turns k

def Act.asks (finishing : Bool) (k id : Nat) : Act → Bool
  | .askReserve tc => !finishing && tc.jobId == k && tc.id == id
  | .askFinish tc => finishing && tc.jobId == k && tc.id == id
  | _ => false

def asksInPhase (finishing : Bool) (k id : Nat) (log : List Act) : Nat :=
  (phase k log).countP (Act.asks finishing k id)

section Phase

variable {k id : Nat} {f : Bool}

theorem phase_append {acts : List Act} (log : List Act) (h : ∀ a ∈ acts, a.turns k = false) :
    phase k (acts ++ log) = acts ++ phase k log :=
  List.takeWhile_append_of_pos fun a ha => by simp [h a ha]

theorem turns_of_times {a : Act} (h : a.times k = false) : a.turns k = false := by
  cases a <;> simp_all [Act.times, Act.turns]

theorem asksInPhase_untimed {acts : List Act} (log : List Act) (h : ∀ a ∈ acts, a.times k = false) :
    asksInPhase f k id (acts ++ log) = asksInPhase f k id log := by
  have hnone : acts.countP (Act.asks f k id) = 0 := by
    rw [List.countP_eq_zero]
    intro a ha
    have ht := h a ha
    cases a <;> simp_all [Act.times, Act.asks]
  rw [asksInPhase, phase_append log fun a ha => turns_of_times (h a ha), List.countP_append, hnone,
    Nat.zero_add, asksInPhase]

theorem asksInPhase_ask (p : Retrying) {tc : Meta} (hk : tc.jobId = k) (log : List Act) :
    asksInPhase f k id (p.ask tc :: log) =
      asksInPhase f k id log + if p.finishing = f ∧ tc.id = id then 1 else 0 := by
  have hphase : phase k (p.ask tc :: log) = p.ask tc :: phase k log := by
    cases p <;> simp [phase, Retrying.ask, Act.turns]
  rw [asksInPhase, hphase, List.countP_cons, asksInPhase]
  congr 1
  cases p <;> cases f <;> simp [Retrying.ask, Retrying.finishing, Act.asks, hk]

/-- At the beginning of a phase every transaction has been asked once. -/
theorem asksInPhase_turn {asks : List Meta} {turn : Act} (ask : Meta → Act)
    (hask : ask = if f then Act.askFinish else Act.askReserve) (ht : turn.turns k = true) (log : List Act)
    (hjob : ∀ tc ∈ asks, tc.jobId = k) (hnd : (asks.map (·.id)).Nodup) (hid : id ∈ asks.map (·.id)) :
    asksInPhase f k id ((asks.map ask).reverse ++ turn :: log) = 1 := by
  have hquiet : ∀ a ∈ (asks.map ask).reverse, a.turns k = false := by
    intro a ha
    obtain ⟨tc, -, rfl⟩ := List.mem_map.mp (List.mem_reverse.mp ha)
    rw [hask]
    split <;> rfl
  have hone : asks.countP (fun tc => tc.id == id) = 1 := by
    have hc := List.count_eq_one_of_mem hnd hid
    rwa [List.count, List.countP_map] at hc
  rw [asksInPhase, phase_append _ hquiet]
  have hend : phase k (turn :: log) = [] := by simp [phase, ht]
  rw [hend, List.append_nil, List.countP_reverse, List.countP_map, ← hone]
  apply List.countP_congr
  intro tc htc
  subst hask
  cases f <;> simp [Act.asks, hjob tc htc]

end Phase

namespace TaskManager

/-- The request of a phase, resent for the transaction at position `i` of the job. -/
def phaseRequest (finishing : Bool) (ref : Ref) (i : Nat) : Retrying :=
  if finishing then .finish ref i else .reserve ref i

def phaseReport (finishing : Bool) : TccState := if finishing then .finished else .confirmed

/-- The timer of the transaction resends the request `p`, or this has been done as often as
the transaction allows. -/
def Resends (m : TaskManager) (k id retries : Nat) (p : Retrying) : Prop :=
  (∃ tm, m.tms[id]? = some tm ∧ tm.p = some p ∧ 0 < tm.d ∧
    tm.r + asksInPhase p.finishing k id m.log = 1 + retries) ∨
  1 + retries ≤ asksInPhase p.finishing k id m.log

/-- Every transaction of job `k` that owes the report of the current phase is asked again. -/
def Armed (dir : Directory) (m : TaskManager) (k : Nat) (tj : JobResource) : Prop :=
  ∀ (i id : Nat) (s : Nat × Nat), (dir.txs k)[i]? = some id → (m.heap tj.resource).settings[i]? = some s →
    reported k id (phaseReport (decided k (history k m.log))) (history k m.log) = false →
    Resends m k id s.2 (phaseRequest (decided k (history k m.log)) tj.resource i)

/-- A report of a job that has not finished is one of the current phase, or comes from a
transaction that has reported for it already. -/
def OfPhase (m : TaskManager) (mt : Meta) : Prop :=
  .finished mt.jobId ∉ history mt.jobId m.log →
    (mt.state = .confirmed → decided mt.jobId (history mt.jobId m.log) = false ∨
      reported mt.jobId mt.id .finished (history mt.jobId m.log) = true) ∧
    (mt.state = .finished → decided mt.jobId (history mt.jobId m.log) = true ∨
      reported mt.jobId mt.id .confirmed (history mt.jobId m.log) = true)

instance (m : TaskManager) (mt : Meta) : Decidable (OfPhase m mt) := inferInstanceAs (Decidable (_ → _))

variable {dir : Directory} {m m' : TaskManager} {k : Nat}

theorem phaseRequest_finishing (f : Bool) (ref : Ref) (i : Nat) : (phaseRequest f ref i).finishing = f := by
  cases f <;> rfl

namespace Resends

variable {id retries : Nat} {p : Retrying}

theorem untimed (h : Resends m k id retries p) (htms : m'.tms[id]? = m.tms[id]?) (hl : Untimed k m m') :
    Resends m' k id retries p := by
  obtain ⟨acts, hl, ha⟩ := hl
  unfold Resends
  rw [htms, hl, asksInPhase_untimed m.log ha]
  exact h

theorem expired (h : Resends m k id retries p) {tm : Timeout} (htm : m.tms[id]? = some tm)
    (hz : ¬ (0 < tm.d ∧ 0 < tm.r)) (hl : m'.log = m.log) : Resends m' k id retries p := by
  refine .inr ?_
  rw [hl]
  rcases h with ⟨tm', htm', -, hd, hr⟩ | h
  · obtain rfl := Option.some.inj (htm.symm.trans htm')
    omega
  · exact h

theorem resent (h : Resends m k id retries p) {tm : Timeout} {q : Retrying} {tc : Meta}
    (htm : m.tms[id]? = some tm) (hq : tm.p = some q) (hr : 0 < tm.r) (hid : tc.id = id) (hk : tc.jobId = k)
    (htms : m'.tms[id]? = some { tm with r := tm.r - 1 }) (hl : m'.log = q.ask tc :: m.log) :
    Resends m' k id retries p := by
  unfold Resends
  rw [hl, asksInPhase_ask q hk]
  rcases h with ⟨tm', htm', hp, hd, hsum⟩ | h
  · obtain rfl := Option.some.inj (htm.symm.trans htm')
    obtain rfl := Option.some.inj (hq.symm.trans hp)
    refine .inl ⟨_, htms, hp, hd, ?_⟩
    rw [if_pos ⟨rfl, hid⟩]
    show tm.r - 1 + _ = _
    omega
  · exact .inr (Nat.le_trans h (Nat.le_add_right _ _))

theorem other (h : Resends m k id retries p) {key : Nat} {q : Retrying} {tc : Meta} (hid : tc.id = key)
    (hne : key ≠ id) (hk : tc.jobId = k) (htms : m'.tms[id]? = m.tms[id]?) (hl : m'.log = q.ask tc :: m.log) :
    Resends m' k id retries p := by
  unfold Resends
  rw [htms, hl, asksInPhase_ask q hk, if_neg fun hx => hne (hid.symm.trans hx.2)]
  exact h

end Resends

namespace Armed

variable {tj tj' : JobResource}

/-- Steps that leave the phase of the job: what is owed after them was owed before. -/
theorem of_same_phase (h : Armed dir m k tj)
    (hset : (m'.heap tj'.resource).settings = (m.heap tj.resource).settings)
    (hr : tj'.resource = tj.resource) (hd : decided k (history k m'.log) = decided k (history k m.log))
    (hstep : ∀ id ∈ dir.txs k, ∀ retries p,
      reported k id (phaseReport (decided k (history k m.log))) (history k m'.log) = false →
      reported k id (phaseReport (decided k (history k m.log))) (history k m.log) = false ∧
        (Resends m k id retries p → Resends m' k id retries p)) : Armed dir m' k tj' := by
  intro i id s hi hs hrep
  rw [hd] at hrep ⊢
  rw [hset] at hs
  rw [hr]
  obtain ⟨hrep₀, hres⟩ := hstep id (List.mem_of_getElem? hi) s.2 _ hrep
  exact hres (h i id s hi hs hrep₀)

theorem closed (h : Armed dir m k tj) (hset : (m'.heap tj'.resource).settings = (m.heap tj.resource).settings)
    (hr : tj'.resource = tj.resource) {mt : Meta} (hk : mt.jobId = k) (hQ : OfPhase m mt)
    (hst : mt.state = .confirmed ∨ mt.state = .finished) (hfin : .finished k ∉ history k m.log)
    (hh : history k m'.log = .received mt :: history k m.log)
    (htms : ∀ id ∈ dir.txs k, m'.tms[id]? = if mt.id = id then none else m.tms[id]?)
    (hl : Untimed k m m') : Armed dir m' k tj' := by
  subst hk
  refine h.of_same_phase hset hr (by rw [hh]; rfl) fun id hid retries p hrep => ?_
  rw [hh, reported_received rfl, Bool.or_eq_false_iff] at hrep
  refine ⟨hrep.2, fun hres => ?_⟩
  have hne : mt.id ≠ id := by
    rintro rfl
    obtain ⟨hconf, hfinish⟩ := hQ hfin
    cases hd : decided mt.jobId (history mt.jobId m.log) with
    | false =>
      simp only [hd, phaseReport, Bool.false_eq_true, if_false] at hrep
      rcases hst with hst | hst
      · simp [hst] at hrep
      · rcases hfinish hst with hx | hx
        · simp [hd] at hx
        · simp [hx] at hrep
    | true =>
      simp only [hd, phaseReport, if_true] at hrep
      rcases hst with hst | hst
      · rcases hconf hst with hx | hx
        · simp [hd] at hx
        · simp [hx] at hrep
      · simp [hst] at hrep
  exact hres.untimed ((htms id hid).trans (if_neg hne)) hl

theorem of_rearmed {ref : Ref} {f : Bool} {asks : List Meta} {turn : Act} {log : List Act}
    (hc : Carrying (0 < ·.1) m) (hlt : tj.resource < m.next) (hr : tj.resource = ref)
    (hf : decided k (history k m.log) = f) (ht : Rearmed dir k m ref (phaseRequest f ref))
    (hturn : turn.turns k = true) (hjob : ∀ tc ∈ asks, tc.jobId = k) (ha : asks.map (·.id) = dir.txs k)
    (hl : m.log = (asks.map (if f then Act.askFinish else Act.askReserve)).reverse ++ turn :: log) :
    Armed dir m k tj := by
  subst hr
  intro i id s hi hs _
  rw [hf]
  obtain ⟨tc, htc, htms⟩ := ht i id hi
  have hsettings : s = (tc.mt.timeout, tc.mt.retries) := by
    simp only [Job.settings, List.getElem?_map, htc, Option.map_some, Option.some.injEq] at hs
    exact hs.symm
  refine .inl ⟨_, htms, rfl, ?_, ?_⟩
  · have hpos := hc _ hlt s (List.mem_of_getElem? hs)
    rw [hsettings] at hpos
    exact hpos
  · rw [phaseRequest_finishing, hl, asksInPhase_turn _ rfl hturn log hjob (ha ▸ dir.nodup k)
      (ha ▸ List.mem_of_getElem? hi), hsettings]
    exact Nat.add_comm _ _

theorem step (hs : Sound dir m) (hs' : Sound dir m') (hc : Carrying (0 < ·.1) m')
    (hset : ∀ r < m.next, (m'.heap r).settings = (m.heap r).settings)
    (ht : TimerStep dir OfPhase k m m') (hj' : m'.tjs[k]? = some tj')
    (hun : ∀ tr ∈ m'.trs[dir.task k]?, tr.mt.state ≠ .finished) (hfin : .finished k ∉ history k m'.log)
    (h : ∀ tj, m.tjs[k]? = some tj → .finished k ∉ history k m.log → Armed dir m k tj) :
    Armed dir m' k tj' := by
  have hsettings : ∀ {tj}, m.tjs[k]? = some tj → tj'.resource = tj.resource →
      (m'.heap tj'.resource).settings = (m.heap tj.resource).settings := by
    intro tj hj hr
    rw [hr]
    exact hset _ (hs.wellformed.job k tj hj).lt
  have hlt := (hs'.wellformed.job k tj' hj').lt
  cases ht with
  | quiet hkeep hh htms hl =>
    obtain ⟨tj, hj, hr⟩ := hkeep tj' hj'
    rw [hh] at hfin
    refine (h tj hj hfin).of_same_phase (hsettings hj hr) hr (by rw [hh]) fun id hid _ _ hrep => ?_
    rw [hh] at hrep
    exact ⟨hrep, fun hres => hres.untimed (htms id hid) hl⟩
  | closed hkeep hQ hk hst hh htms hl =>
    obtain ⟨tj, hj, hr⟩ := hkeep tj' hj'
    rcases hh with hh | hh
    · have hfin₀ : .finished k ∉ history k m.log := by simpa [hh] using hfin
      exact (h tj hj hfin₀).closed (hsettings hj hr) hr hk hQ hst hfin₀ hh htms hl
    · exact absurd hh hfin
  | stopped hT =>
    obtain ⟨tr, htr, hx⟩ := hT
    exact absurd hx (hun tr htr)
  | @expired key tm hkeep htm hz htms hl =>
    obtain ⟨tj, hj, hr⟩ := hkeep tj' hj'
    rw [hl] at hfin
    refine (h tj hj hfin).of_same_phase (hsettings hj hr) hr (by rw [hl]) fun id hid _ _ hrep => ?_
    rw [hl] at hrep
    refine ⟨hrep, fun hres => ?_⟩
    by_cases hne : key = id
    · subst hne
      exact hres.expired htm hz hl
    · exact hres.untimed ((htms id hid).trans (if_neg hne)) ⟨[], hl, by simp⟩
  | @resent key tm q tc hkeep htm hp hr hid hk hmem hh htms hl =>
    obtain ⟨tj, hj, hres⟩ := hkeep tj' hj'
    have hfin₀ : .finished k ∉ history k m.log := by
      rcases hh with hh | ⟨_, -, hh⟩
      · rwa [hh] at hfin
      · simpa [hh] using hfin
    refine (h tj hj hfin₀).of_same_phase (hsettings hj hres) hres (hh.askedAny _) fun id hid' _ _ hrep => ?_
    rw [reported, hh.receivedAny] at hrep
    refine ⟨hrep, fun hx => ?_⟩
    by_cases hne : key = id
    · subst hne
      exact hx.resent htm hp hr hid hk ((htms key hmem).trans (if_pos rfl)) hl
    · exact hx.other hid hne hk ((htms id hid').trans (if_neg hne)) hl
  | @started ref asks hj hjob ha ht hl =>
    obtain ⟨acts, -, hl⟩ := hl
    have hr : tj'.resource = ref := by simpa [hj'] using hj
    have hh : history k m'.log = [] := by
      rw [hl, history_append _ (by simp), history_started, List.append_nil, List.filter_eq_nil_iff]
      simp [Act.concerns]
    exact of_rearmed (f := false) hc hlt hr (by rw [hh]; rfl) ht (by simp [Act.turns]) hjob ha hl
  | @decided mt tj turn st asks hkeep hQ hk hj hst ha ht hl =>
    obtain ⟨tj₀, hj₀, hr⟩ := hkeep tj' hj'
    obtain rfl := Option.some.inj (hj.symm.trans hj₀)
    by_cases hne : dir.txs k = []
    · intro i id s hi
      simp [hne] at hi
    · have hf : Tarantula.decided k (history k m'.log) = true := by
        rw [hl, ha.history, if_pos rfl, Tarantula.decided, askedAny_append,
          show askedAny _ _ = true from ha.decided hne, Bool.true_or]
      have hturn : turn.turns k = true := by
        rcases hst with ⟨rfl, -⟩ | ⟨rfl, -⟩ <;> simp [Act.turns]
      exact of_rearmed (f := true) hc hlt hr hf ht hturn ha.job ha.ids hl

end Armed

structure Running (dir : Directory) (m : TaskManager) (k : Nat) (tj : JobResource) : Prop where
  job : m.tjs[k]? = some tj
  task : ∀ tr ∈ m.trs[dir.task k]?, tr.mt.state ≠ .finished
  finished : .finished k ∉ history k m.log

variable {Q : TaskManager → Meta → Prop} {e : Event}

theorem unfinished_before (hs : Sound dir m) (hs' : Sound dir m') (h : Micro dir Q m m')
    {tj tj' : JobResource} (hj : m.tjs[k]? = some tj) (hj' : m'.tjs[k]? = some tj')
    (hun : ∀ tr ∈ m'.trs[dir.task k]?, tr.mt.state ≠ .finished) :
    ∀ tr ∈ m.trs[dir.task k]?, tr.mt.state ≠ .finished := by
  obtain ⟨tr', htr'⟩ := Option.isSome_iff_exists.mp (hs'.wellformed.job k tj' hj').task
  have hin := (hs.wellformed.job k tj hj).task
  have hsame : ∀ {tr₀}, m.trs[dir.task k]? = some tr₀ → tr₀.mt = tr'.mt →
      ∀ tr ∈ m.trs[dir.task k]?, tr.mt.state ≠ .finished := by
    intro tr₀ htr₀ hmt tr htr
    obtain rfl := Option.some.inj (htr₀.symm.trans htr)
    rw [hmt]
    exact hun tr' htr'
  cases Steps.of_micro hs h _ tr' htr' (hun tr' htr') with
  | same htr => exact hsame htr rfl
  | queued h₀ => simp [h₀] at hin
  | running h₀ => simp [h₀] at hin
  | jobless h₀ => simp [h₀] at hin
  | started htr => exact hsame htr rfl
  | canceled _ _ _ _ htr => exact hsame htr rfl
  | next _ _ htr => exact hsame htr rfl

/-- Events of tasks whose transactions have a timeout, with reports that come in their
phase. -/
def Prompt (dir : Directory) (m : TaskManager) (e : Event) : Prop :=
  e.Genuine dir m ∧ e.Carries (0 < ·.1) ∧ OnHandled OfPhase m e

instance (dir : Directory) (m : TaskManager) (e : Event) : Decidable (Prompt dir m e) :=
  inferInstanceAs (Decidable (_ ∧ _ ∧ _))

def AllArmed (dir : Directory) (m : TaskManager) : Prop := ∀ k tj, Running dir m k tj → Armed dir m k tj

theorem AllArmed.micro (h : AllArmed dir m) (hs : Sound dir m) (hs' : Sound dir m') (hu : dir.Unique)
    (hc : Carrying (0 < ·.1) m') (hm : Micro dir OfPhase m m') : AllArmed dir m' := by
  intro k tj' hrun
  refine Armed.step hs hs' hc (fun r hr => micro_settings hm hr) (.of_micro hs hu hm) hrun.job hrun.task
    hrun.finished fun tj hj hfin => ?_
  exact h k tj ⟨hj, unfinished_before hs hs' hm hj hrun.job hrun.task, hfin⟩

theorem armed_of_reaches (hu : dir.Unique) (h : Reaches wait (Prompt dir) empty m) :
    Sound dir m ∧ Carrying (0 < ·.1) m ∧ AllArmed dir m := by
  refine Reaches.invariant (I := fun m => Sound dir m ∧ Carrying (0 < ·.1) m ∧ AllArmed dir m) h
    ⟨.empty dir, fun r hr => absurd hr (Nat.not_lt_zero r), fun k tj hrun => ?_⟩ ?_
  · simpa [empty] using hrun.job
  · rintro s e t ⟨hs, hc, ha⟩ ⟨hg, hcar, hon⟩ hstep
    have hw := wait_cases hstep
    have hst := hs.waited hg.numbered hw
    have hct := hc.waited hcar hw
    obtain ⟨m₁, hf, hs₁, h₁, h₂⟩ := wait_micro hs hg hon hstep
    have ha₁ := ha.micro hs hs₁ hu (hc.found hcar hf) h₁
    exact ⟨hst, hct, ha₁.micro hs₁ hst hu hct h₂⟩

/-- In every run of prompt events, each transaction of a running job that owes its report
for the current phase has a timer that resends the request of that phase, unless it has
been asked once and resent as often as its retries allow. -/
theorem retransmission_armed (hu : dir.Unique) (h : Reaches wait (Prompt dir) empty m) :
    ∀ (k : Nat) tj (i id : Nat) tc, Running dir m k tj → (dir.txs k)[i]? = some id →
      (m.heap tj.resource).transactions[i]? = some tc →
      (decided k (history k m.log) = false → reported k id .confirmed (history k m.log) = false →
        (∃ tm, m.tms[id]? = some tm ∧ tm.p = some (.reserve tj.resource i)) ∨
          1 + tc.mt.retries ≤ asksInPhase false k id m.log) ∧
      (decided k (history k m.log) = true → reported k id .finished (history k m.log) = false →
        (∃ tm, m.tms[id]? = some tm ∧ tm.p = some (.finish tj.resource i)) ∨
          1 + tc.mt.retries ≤ asksInPhase true k id m.log) := by
  intro k tj i id tc hrun hi htc
  have harm := (armed_of_reaches hu h).2.2 k tj hrun i id (tc.mt.timeout, tc.mt.retries) hi
    (by simp [Job.settings, htc])
  constructor
  · intro hd hrep
    rw [hd] at harm
    rcases harm hrep with ⟨tm, htm, hp, _⟩ | hasks
    · exact .inl ⟨tm, htm, hp⟩
    · exact .inr hasks
  · intro hd hrep
    rw [hd] at harm
    rcases harm hrep with ⟨tm, htm, hp, _⟩ | hasks
    · exact .inl ⟨tm, htm, hp⟩
    · exact .inr hasks

/-- Job 2 is confirmed, its transaction 3 has finished and the request of transaction 4
has been resent once. -/
theorem retransmission_armed_sample :
    ∃ m, Reaches wait (Prompt sampleDirectory) empty m ∧ decided 2 (history 2 m.log) = true ∧
      reported 2 4 .finished (history 2 m.log) = false ∧ asksInPhase true 2 4 m.log = 2 ∧
      ∃ tm ref, m.tms[4]? = some tm ∧ tm.p = some (.finish ref 1) := by
  obtain ⟨m, hm, hd, hrep, hasks, ⟨tj, hj, tc, htc, hr⟩, htask, hfin⟩ :=
    exists_reaches_of_checkedRun wait (Prompt sampleDirectory)
    (fun m => decided 2 (history 2 m.log) = true ∧ reported 2 4 .finished (history 2 m.log) = false ∧
      asksInPhase true 2 4 m.log = 2 ∧
      (∃ tj ∈ m.tjs[2]?, ∃ tc ∈ (m.heap tj.resource).transactions[1]?, tc.mt.retries = 3) ∧
      (∀ tr ∈ m.trs[sampleDirectory.task 2]?, tr.mt.state ≠ .finished) ∧ .finished 2 ∉ history 2 m.log) empty
    [.task sampleTask, .job 0, .update (sampleMeta 2 3 .confirmed) none,
      .update (sampleMeta 2 4 .confirmed) none, .update (sampleMeta 2 4 .transactionTimeout) none,
      .update (sampleMeta 2 3 .finished) none] (by decide)
  have h := retransmission_armed sampleDirectory_unique hm 2 tj 1 4 tc ⟨hj, htask, hfin⟩ (by decide) htc
  refine ⟨m, hm, hd, hrep, hasks, ?_⟩
  rcases h.2 hd hrep with ⟨tm, htm, hp⟩ | hx
  · exact ⟨tm, _, htm, hp⟩
  · omega

/-- Job 2 is confirmed and both transactions are asked to finish when the `CONFIRMED` of
transaction 3 arrives once more: its timer is gone, and it was asked only once. -/
theorem retransmission_disarmed :
    ∃ m tj, Reaches wait (fun m e => e.Genuine sampleDirectory m ∧ e.Carries (0 < ·.1)) empty m ∧
      Running sampleDirectory m 2 tj ∧ decided 2 (history 2 m.log) = true ∧
      reported 2 3 .finished (history 2 m.log) = false ∧ m.tms[3]? = none ∧
      asksInPhase true 2 3 m.log = 1 ∧
      ∀ tc ∈ (m.heap tj.resource).transactions, tc.mt.retries = 3 := by
  obtain ⟨m, hm, ⟨tj, hj, hr⟩, htask, hfin, hx⟩ := exists_reaches_of_checkedRun wait
    (fun m e => e.Genuine sampleDirectory m ∧ e.Carries (0 < ·.1))
    (fun m => (∃ tj ∈ m.tjs[2]?, ∀ tc ∈ (m.heap tj.resource).transactions, tc.mt.retries = 3) ∧
      (∀ tr ∈ m.trs[sampleDirectory.task 2]?, tr.mt.state ≠ .finished) ∧
      .finished 2 ∉ history 2 m.log ∧ decided 2 (history 2 m.log) = true ∧
      reported 2 3 .finished (history 2 m.log) = false ∧ m.tms[3]? = none ∧
      asksInPhase true 2 3 m.log = 1) empty
    [.task sampleTask, .job 0, .update (sampleMeta 2 3 .confirmed) none,
      .update (sampleMeta 2 4 .confirmed) none, .update (sampleMeta 2 3 .confirmed) none] (by decide)
  exact ⟨m, tj, hm, ⟨hj, htask, hfin⟩, hx.1, hx.2.1, hx.2.2.1, hx.2.2.2, hr⟩

end TaskManager

end Tarantula
