import Tarantula.JoinCounter
import Tarantula.SteadyRuns

/-! The two barriers of a job in a steady run. A job is started once, so its history is all
the log says of it: `confirmed` has run once all its transactions have reported `CONFIRMED`,
and `finished` once all have reported `FINISHED`. -/

namespace Tarantula

/-- Every transaction of the job has reported the state, and there is one. -/
def AllReported (dir : Directory) (k : Nat) (st : TccState) (log : List Act) : Prop :=
  dir.txs k ≠ [] ∧ ∀ id ∈ dir.txs k, reported k id st log = true

instance (dir : Directory) (k : Nat) (st : TccState) (log : List Act) :
    Decidable (AllReported dir k st log) :=
  inferInstanceAs (Decidable (_ ∧ _))

theorem allReported_congr {dir : Directory} {k : Nat} {st : TccState} {log log' : List Act}
    (h : ∀ id, reported k id st log' = reported k id st log) :
    AllReported dir k st log' ↔ AllReported dir k st log := by
  simp only [AllReported, h]

/-- `AskFinish` has been issued once every transaction has reported `CONFIRMED`, and the job
is finished after that. -/
structure Joined (dir : Directory) (k : Nat) (h : List Act) : Prop where
  decided : decided k h = true ↔ AllReported dir k .confirmed h
  finished : .finished k ∈ h → Tarantula.decided k h = true
  once : h.count (.finished k) ≤ 1

namespace Joined

variable {dir : Directory} {k : Nat} {mt : Meta} {tj tj' : JobResource} {h h' : List Act}

theorem same (hj : Joined dir k h) (hr : ∀ id st, reported k id st h' = reported k id st h)
    (ha : Tarantula.decided k h' = Tarantula.decided k h) (hf : .finished k ∈ h' → .finished k ∈ h)
    (hc : h'.count (.finished k) = h.count (.finished k)) : Joined dir k h' := by
  refine ⟨?_, fun hx => ?_, hc ▸ hj.once⟩
  · rw [ha, allReported_congr (hr · _)]
    exact hj.decided
  · rw [ha]
    exact hj.finished (hf hx)

theorem undecided (hj : Joined dir k h) (hm : mt.id ∈ dir.txs k)
    (hf : reported k mt.id .confirmed h = false) :
    Tarantula.decided k h = false ∧ .finished k ∉ h := by
  have hd : Tarantula.decided k h = false := by
    rw [Bool.eq_false_iff]
    intro hd
    simp [(hj.decided.mp hd).2 _ hm] at hf
  exact ⟨hd, fun hx => by simp [hj.finished hx] at hd⟩

theorem timely (hj : Joined dir k h) (hm : mt.state = .confirmed → mt.id ∈ dir.txs k)
    (hf : mt.state = .finished → Tarantula.decided k h = true) (hc : mt.state ≠ .canceled) :
    Timely dir k h mt := by
  refine fun _ => ⟨fun hs => ?_, fun hs => .inr (hf hs), fun hs => absurd hs hc⟩
  cases hd : Tarantula.decided k h with
  | false => exact .inr rfl
  | true => exact .inl ((hj.decided.mp hd).2 _ (hm hs))

theorem move (hj : Joined dir k h) (hp : InPhase dir k tj h) (hc : Counting dir k tj h)
    (hmem : ∀ id : Nat, (tj.joining[id]?).isSome ↔ id ∈ dir.txs k)
    (hlen : tj.joinParties = (dir.txs k).length) (hm : JobMove dir k mt tj h tj' h')
    (hne : mt.state ≠ .canceled) (hf : mt.jobId = k → mt.state = .finished → Tarantula.decided k h = true) :
    Joined dir k h' := by
  -- the reports that are no `CONFIRMED` leave the first barrier alone
  have hother : mt.state = .finished → ∀ id,
      reported k id .confirmed (.received mt :: h) = reported k id .confirmed h :=
    fun hs => reported_other (by simp [hs])
  cases hm with
  | quiet _ hr =>
    refine hj.same (fun id st => hr.receivedAny _) (hr.askedAny _) ?_ ?_
    · rcases hr with rfl | ⟨tc, -, rfl⟩ <;> simp
    · rcases hr with rfl | ⟨tc, -, rfl⟩ <;> simp
  | again hk ht hd =>
    exact hj.same (reported_duplicate hk (hc.duplicate ht hd)) rfl (by simp) (by simp)
  | @confirm t _ hk ht hs hz hl =>
    have hid := (hmem mt.id).mp (by simp [ht])
    have hfirst := hc.first_confirmed ht hz
    obtain ⟨hd, hnot⟩ := hj.undecided hid hfirst
    refine ⟨?_, fun hx => absurd (by simpa using hx) hnot, by simpa using hj.once⟩
    have hlast : (dir.txs k).length ≠ reports dir k .confirmed h + 1 := by
      rw [← (hp.early hnot hd).1, ← hlen]
      exact hl
    rw [ne_eq, ← InPhase.all_reported_iff hid hk hs hfirst] at hlast
    simp only [AllReported, hlast, and_false, iff_false]
    simpa [Tarantula.decided] using hd
  | @confirmLast t _ asks hk ht hs hz hl ha =>
    have hid := (hmem mt.id).mp (by simp [ht])
    have hne := List.ne_nil_of_mem hid
    have hfirst := hc.first_confirmed ht hz
    obtain ⟨hd, hnot⟩ := hj.undecided hid hfirst
    have hd' : Tarantula.decided k ((asks.map Act.askFinish).reverse ++ .received mt :: h) = true := by
      rw [Tarantula.decided, askedAny_append, show askedAny _ _ = true from ha.decided hne, Bool.true_or]
    have hlast : (dir.txs k).length = reports dir k .confirmed h + 1 := by
      rw [← (hp.early hnot hd).1, ← hlen]
      exact hl
    rw [← InPhase.all_reported_iff hid hk hs hfirst] at hlast
    refine ⟨?_, fun _ => hd', ?_⟩
    · simpa only [hd', AllReported, reported_asks, true_iff] using ⟨hne, hlast⟩
    · rw [List.count_append, List.count_eq_zero_of_not_mem (by simp), List.count_cons_of_ne (by simp),
        Nat.zero_add]
      exact hj.once
  | finish hk ht hs hz hl =>
    refine ⟨?_, fun hx => hj.finished (by simpa using hx), by simpa using hj.once⟩
    rw [allReported_congr (hother hs)]
    exact hj.decided
  | @finishLast t _ hk ht hs hz hl =>
    have hfirst := hc.first_finished ht hz
    have hnot : .finished k ∉ h := fun hx => by
      simp [(hp.completed.mp hx).2 _ ((hmem mt.id).mp (by simp [ht]))] at hfirst
    refine ⟨?_, fun _ => hf hk hs, ?_⟩
    · have hr : ∀ id, reported k id .confirmed (.finished k :: .received mt :: h) =
          reported k id .confirmed h := hother hs
      rw [allReported_congr hr]
      exact hj.decided
    · have hcount : (Act.finished k :: .received mt :: h).count (.finished k) = 1 := by
        rw [List.count_cons_self, List.count_cons_of_ne (by simp), List.count_eq_zero_of_not_mem hnot]
      exact Nat.le_of_eq hcount
  | cancel _ hs => exact absurd hs hne

theorem started (dir : Directory) (k : Nat) : Joined dir k [] := by
  refine ⟨?_, by simp, by simp⟩
  simp only [Tarantula.decided, askedAny, List.any_nil, Bool.false_eq_true, false_iff]
  rintro ⟨hne, hall⟩
  obtain ⟨id, hid⟩ := List.exists_mem_of_ne_nil _ hne
  exact absurd (hall id hid) (by simp [reported, receivedAny])

end Joined

namespace TaskManager

variable {dir : Directory} {m m' : TaskManager}

theorem handled_confirmed (hs : Sound dir m) {mt : Meta} (hr : SteadyReport dir m mt)
    (h : Handled m mt m') (k : Nat) :
    m'.log.count (.confirmed k) = m.log.count (.confirmed k) ∧
        decided k (history k m'.log) = decided k (history k m.log) ∨
      mt.jobId = k ∧ Completes m mt ∧ m'.log.count (.confirmed k) = m.log.count (.confirmed k) + 1 ∧
        decided k (history k m'.log) = true := by
  have hreceived : m'.log = .received mt :: m.log →
      m'.log.count (.confirmed k) = m.log.count (.confirmed k) ∧
        decided k (history k m'.log) = decided k (history k m.log) := by
    intro hl
    rw [hl, List.count_cons_of_ne (by simp), history_received]
    split <;> simp [decided]
  cases h with
  | duplicate => exact .inl (hreceived rfl)
  | confirm => exact .inl (hreceived rfl)
  | @confirmLast tj t hj htj hst hz hl =>
    have hc := Frame.counted { t with confirmed := t.confirmed + 1 } hj htj rfl
    obtain ⟨-, asks, ha, hlog⟩ := confirmed_decision (hs.wellformed.of_frame hc) mt.jobId
      (tj.count mt.id { t with confirmed := t.confirmed + 1 }) (by simp [counted, putJob])
    have hcount : ∀ j, ((m.counted mt tj t { t with confirmed := t.confirmed + 1 }).confirmed mt.jobId
        (tj.count mt.id { t with confirmed := t.confirmed + 1 })).log.count (.confirmed j) =
        (.confirmed mt.jobId :: m.log).count (.confirmed j) := by
      intro j
      rw [hlog, List.count_append, List.count_eq_zero_of_not_mem (by simp), Nat.zero_add,
        show (m.counted mt tj t { t with confirmed := t.confirmed + 1 }).log = .received mt :: m.log from rfl,
        List.count_cons, List.count_cons_of_ne (by simp), List.count_cons]
    rw [hcount, hlog, ha.history]
    by_cases hk : mt.jobId = k
    · have hid := ((hs.wellformed.job _ tj hj).mem mt.id).mp (by simp [htj])
      refine .inr ⟨hk, ⟨hst, tj, hj, t, htj, hz, hl⟩, by rw [hk, List.count_cons_self], ?_⟩
      subst hk
      rw [if_pos rfl, decided, askedAny_append,
        show askedAny _ _ = true from ha.decided (List.ne_nil_of_mem hid), Bool.true_or]
    · refine .inl ⟨List.count_cons_of_ne (by simpa using hk), ?_⟩
      rw [if_neg fun he => hk he.symm]
      simp [counted, putJob, hk]
  | finish => exact .inl (hreceived rfl)
  | @finishLast tj t _ hj htj _ _ _ hm =>
    obtain ⟨-, acts, hlog, hacts⟩ := finished_log hm
    rw [hlog]
    left
    rcases hacts with ⟨T, rfl⟩ | ⟨T, rfl⟩ <;> simp [counted, putJob] <;> split <;> simp [decided]
  | cancel _ hst => exact absurd hst hr.canceled
  | timeout _ hm =>
    obtain ⟨acts, hl, hacts⟩ := timeout_asks hm
    have hnot : .confirmed k ∉ acts := fun hx => by rcases hacts _ hx with ⟨tc, he⟩ | ⟨tc, he⟩ <;> cases he
    refine .inl ⟨?_, (timeout_move hs.timers hm k).1.askedAny _⟩
    rw [hl, List.count_append, List.count_eq_zero_of_not_mem hnot, Nat.zero_add]
  | jobTimeout hst => exact absurd hst hr.jobTimeout
  | stop hst => exact absurd hst hr.jobTimeout
  | ignored => exact .inl ⟨rfl, rfl⟩

end TaskManager

/-- The barriers of job `k`: each has been passed once when all reports are in, and not before. -/
structure Exact (dir : Directory) (k : Nat) (log : List Act) : Prop where
  confirmed : log.count (.confirmed k) = if AllReported dir k .confirmed log then 1 else 0
  finished : log.count (.finished k) = if AllReported dir k .finished log then 1 else 0

theorem concerns_job {k : Nat} {a : Act} (h : a.concerns k = true) : a.job = some k := by
  cases a <;> simp_all [Act.concerns, Act.job]

theorem reported_filter (k id : Nat) (st : TccState) (log : List Act) :
    reported k id st (log.filter (Act.concerns k)) = reported k id st log := by
  rw [Bool.eq_iff_iff, reported_iff, reported_iff]
  refine exists_congr fun mt => ?_
  simp only [List.mem_filter, Act.concerns, beq_iff_eq]
  tauto

namespace Exact

variable {dir : Directory} {k : Nat} {log acts : List Act}

theorem of_unheard (h : Unheard k log) : Exact dir k log := by
  have hr : ∀ id st, reported k id st log = false := by
    intro id st
    rw [Bool.eq_false_iff, ne_eq, reported_iff]
    rintro ⟨mt, hmem, rfl, -⟩
    exact h _ hmem rfl
  have hnone : ∀ st, ¬ AllReported dir k st log := by
    rintro st ⟨hne, hall⟩
    obtain ⟨id, hid⟩ := List.exists_mem_of_ne_nil _ hne
    simp [hr] at hall
    exact hall id hid
  refine ⟨?_, ?_⟩
  · rw [if_neg (hnone _), List.count_eq_zero]
    exact fun hx => h _ hx rfl
  · rw [if_neg (hnone _), List.count_eq_zero]
    exact fun hx => h _ hx rfl

theorem append (h : Exact dir k log) (ha : ∀ a ∈ acts, a.job = some k →
    ∃ tc, a = .askReserve tc ∨ a = .askFinish tc) : Exact dir k (acts ++ log) := by
  have hnot : ∀ a ∈ acts, a.job = some k → a ≠ .confirmed k ∧ a ≠ .finished k ∧ ∀ mt, a ≠ .received mt := by
    intro a hmem hk
    obtain ⟨tc, rfl | rfl⟩ := ha a hmem hk <;> simp
  have hr : ∀ id st, reported k id st (acts ++ log) = reported k id st log := by
    intro id st
    rw [Bool.eq_iff_iff, reported_iff, reported_iff]
    refine exists_congr fun mt => ?_
    simp only [List.mem_append, or_and_right, or_iff_right_iff_imp]
    rintro ⟨hmem, hk, -⟩
    exact absurd rfl ((hnot _ hmem (congrArg some hk)).2.2 mt)
  refine ⟨?_, ?_⟩
  · rw [List.count_append, List.count_eq_zero_of_not_mem fun hx => (hnot _ hx rfl).1 rfl, Nat.zero_add,
      h.confirmed]
    simp only [allReported_congr (hr · _)]
  · rw [List.count_append, List.count_eq_zero_of_not_mem fun hx => (hnot _ hx rfl).2.1 rfl, Nat.zero_add,
      h.finished]
    simp only [allReported_congr (hr · _)]

end Exact

/-- What the log says of a job that has been started once and is in memory. -/
structure Once (dir : Directory) (k : Nat) (tj : JobResource) (log : List Act) : Prop where
  started : .started k ∈ log
  whole : history k log = log.filter (Act.concerns k)
  phase : InPhase dir k tj (history k log)
  joined : Joined dir k (history k log)
  confirmed : log.count (.confirmed k) = if decided k (history k log) then 1 else 0

namespace Once

variable {dir : Directory} {k : Nat} {tj : JobResource} {log acts : List Act}

theorem whole_append (h : history k log = log.filter (Act.concerns k)) (hs : .started k ∉ acts) :
    history k (acts ++ log) = (acts ++ log).filter (Act.concerns k) := by
  rw [history_append log hs, h, List.filter_append]

theorem exact_ (h : Once dir k tj log) : Exact dir k log := by
  have hall : ∀ st, AllReported dir k st (history k log) ↔ AllReported dir k st log := by
    intro st
    rw [h.whole]
    exact allReported_congr fun id => reported_filter k id st log
  have hcount : log.count (.finished k) = (history k log).count (.finished k) := by
    rw [h.whole, List.count_filter (by simp [Act.concerns])]
  refine ⟨?_, ?_⟩
  · rw [h.confirmed]
    simp only [h.joined.decided, hall]
  · have hf : .finished k ∈ history k log ↔ AllReported dir k .finished log :=
      h.phase.completed.trans (hall .finished)
    rw [hcount]
    split
    · next hx =>
      have hpos := List.count_pos_iff.mpr (hf.mpr hx)
      have hle := h.joined.once
      omega
    · next hx => exact List.count_eq_zero_of_not_mem fun hmem => hx (hf.mp hmem)

theorem same (h : Once dir k tj log) (ha : Unheard k acts) : Once dir k tj (acts ++ log) := by
  have hh : history k (acts ++ log) = history k log := by
    rw [history_append log ha.not_started, List.filter_eq_nil_iff.mpr, List.nil_append]
    exact fun a hmem hc => ha a hmem (concerns_job hc)
  refine ⟨List.mem_append_right _ h.started, whole_append h.whole ha.not_started, ?_, ?_, ?_⟩
  · rw [hh]
    exact h.phase
  · rw [hh]
    exact h.joined
  · rw [hh, List.count_append, List.count_eq_zero_of_not_mem fun hx => ha _ hx rfl, Nat.zero_add]
    exact h.confirmed

end Once

namespace TaskManager

variable {dir : Directory} {m m' : TaskManager}

theorem Once.start (dir : Directory) {ref : Ref} (hu : Unheard (m.heap ref).mt.id m.log) :
    Once dir (m.heap ref).mt.id (Wellformed.startedResource ref (m.heap ref)) (m.start ref).log := by
  have hh : history (m.heap ref).mt.id (m.start ref).log = [] := by rw [history_start, if_pos rfl]
  refine ⟨by simp [Wellformed.start_log], ?_, ?_, ?_, ?_⟩
  · rw [hh, Wellformed.start_log, eq_comm, List.filter_eq_nil_iff]
    intro a ha hc
    simp only [List.mem_append, List.mem_reverse, List.mem_map, List.mem_cons] at ha
    rcases ha with ⟨tc, -, rfl⟩ | rfl | ha
    · cases hc
    · cases hc
    · exact hu a ha (concerns_job hc)
  · rw [hh]
    exact .started dir ref (m.heap ref)
  · rw [hh]
    exact .started dir _
  · have hnot : .confirmed (m.heap ref).mt.id ∉ m.log := fun hx => hu _ hx rfl
    rw [hh, Wellformed.start_log, List.count_append, List.count_eq_zero_of_not_mem (by simp),
      List.count_cons_of_ne (by simp), List.count_eq_zero_of_not_mem hnot]
    rfl

theorem handled_mem (hw : Wellformed dir m) {mt : Meta} (h : Handled m mt m')
    (hs : mt.state = .confirmed) : mt.id ∈ dir.txs mt.jobId := by
  have hin : ∀ {tj t}, m.tjs[mt.jobId]? = some tj → tj.joining[mt.id]? = some t →
      mt.id ∈ dir.txs mt.jobId := fun hj ht => ((hw.job _ _ hj).mem mt.id).mp (by simp [ht])
  cases h with
  | duplicate hj ht => exact hin hj ht
  | confirm hj ht => exact hin hj ht
  | confirmLast hj ht => exact hin hj ht
  | finish hj ht => exact hin hj ht
  | finishLast hj ht => exact hin hj ht
  | cancel _ hst => simp [hst] at hs
  | timeout hst => simp [hst] at hs
  | jobTimeout hst => simp [hst] at hs
  | stop hst => simp [hst] at hs
  | ignored hst => exact absurd hs hst.1

theorem Once.handled (hs : Sound dir m) {mt : Meta} (hr : SteadyReport dir m mt) (hh : Handled m mt m')
    {k : Nat} {tj' : JobResource} (hk : m'.tjs[k]? = some tj')
    (h : ∀ tj, m.tjs[k]? = some tj → Once dir k tj m.log) : Once dir k tj' m'.log := by
  obtain ⟨tj, hj, hmove⟩ := handled_move hs.wellformed hs.timers hh hk
  have ho := h tj hj
  have hent := hs.wellformed.job k tj hj
  have hc := hs.counting k tj hj
  obtain ⟨acts, hl, hst⟩ := (Frame.handled hh).log
  -- a `FINISHED` answers an `AskFinish`, which the history has since the job is started once
  have hfin : mt.jobId = k → mt.state = .finished → decided k (history k m.log) = true := by
    rintro rfl hst
    obtain ⟨tc, htc, hp⟩ := askedAny_iff.mp (hr.finished hst)
    simp only [Bool.and_eq_true, beq_iff_eq] at hp
    refine decided_iff.mpr ⟨tc, ?_, hp.1⟩
    rw [ho.whole]
    exact List.mem_filter.mpr ⟨htc, by simp [Act.concerns, hp.1]⟩
  have htimely : mt.jobId = k → Timely dir k (history k m.log) mt := fun hk' =>
    ho.joined.timely (fun hs' => hk' ▸ handled_mem hs.wellformed hh hs') (hfin hk') hr.canceled
  refine ⟨?_, ?_, ?_, ?_, ?_⟩
  · rw [hl]
    exact List.mem_append_right _ ho.started
  · rw [hl]
    exact Once.whole_append ho.whole (hst k)
  · exact ho.phase.move hc hent.mem hent.parties hmove htimely
  · exact ho.joined.move ho.phase hc hent.mem hent.parties hmove hr.canceled hfin
  · rcases handled_confirmed hs hr hh k with ⟨hcount, hd⟩ | ⟨rfl, ⟨hst', tj₀, hj₀, t, ht, hz, -⟩, hcount, hd⟩
    · rw [hcount, hd]
      exact ho.confirmed
    · -- the report is the first of its transaction, so the decision is new
      obtain rfl : tj = tj₀ := Option.some.inj (hj.symm.trans hj₀)
      have hnew := (ho.joined.undecided (handled_mem hs.wellformed hh hst') (hc.first_confirmed ht hz)).1
      rw [hcount, hd, ho.confirmed, hnew]
      rfl

/-- Where job `k` stands: nothing has been said of it, it has been started once, or it has
been finished and its task cleared. -/
inductive JobTale (dir : Directory) (m : TaskManager) (k : Nat) : Prop
  | unheard (hj : m.tjs[k]? = none) (h : Unheard k m.log)
  | once {tj} (hj : m.tjs[k]? = some tj) (h : Once dir k tj m.log)
  | closed (hj : m.tjs[k]? = none) (hs : .started k ∈ m.log) (he : .ended (dir.task k) ∈ m.log)
      (h : Exact dir k m.log)

namespace JobTale

variable {k : Nat}

theorem exact_ (h : JobTale dir m k) : Exact dir k m.log := by
  cases h with
  | unheard _ h => exact .of_unheard h
  | once _ h => exact h.exact_
  | closed _ _ _ h => exact h

theorem started (h : JobTale dir m k) {tj : JobResource} (hj : m.tjs[k]? = some tj) :
    .started k ∈ m.log := by
  cases h with
  | unheard hn => simp [hn] at hj
  | once _ h => exact h.started
  | closed hn => simp [hn] at hj

theorem get (h : JobTale dir m k) {tj : JobResource} (hj : m.tjs[k]? = some tj) : Once dir k tj m.log := by
  cases h with
  | unheard hn => simp [hn] at hj
  | once hj' h =>
    obtain rfl := Option.some.inj (hj.symm.trans hj')
    exact h
  | closed hn => simp [hn] at hj

theorem unheard_of_not_started (h : JobTale dir m k) (hn : .started k ∉ m.log) : Unheard k m.log := by
  cases h with
  | unheard _ h => exact h
  | once _ h => exact absurd h.started hn
  | closed _ hs => exact absurd hs hn

theorem same (h : JobTale dir m k) (hj : m'.tjs[k]? = m.tjs[k]?) {acts : List Act}
    (hl : m'.log = acts ++ m.log) (ha : Unheard k acts) : JobTale dir m' k := by
  cases h with
  | unheard hn h =>
    refine .unheard (hj.trans hn) ?_
    rw [hl]
    exact unheard_append.mpr ⟨ha, h⟩
  | once hj' h =>
    refine .once (hj.trans hj') ?_
    rw [hl]
    exact h.same ha
  | closed hn hs he h =>
    have hold : ∀ a ∈ m.log, a ∈ m'.log := fun a ha => hl ▸ List.mem_append_right _ ha
    refine .closed (hj.trans hn) (hold _ hs) (hold _ he) ?_
    rw [hl]
    exact h.append fun a hmem hk => absurd hk (ha a hmem)

theorem handled (h : JobTale dir m k) (hs : Sound dir m) {mt : Meta} (hr : SteadyReport dir m mt)
    (hh : Handled m mt m') (ht : Told dir m mt m') : JobTale dir m' k := by
  obtain ⟨acts, hl, ha⟩ := ht.about
  have hnone : m.tjs[k]? = none → m'.tjs[k]? = none := by
    intro hn
    rw [← Option.not_isSome_iff_eq_none, started_of_frame (Frame.handled hh) k, hn]
    exact Bool.false_ne_true
  cases h with
  | unheard hn h =>
    refine .unheard (hnone hn) ?_
    rw [hl]
    refine unheard_append.mpr ⟨fun a hmem hk => ?_, h⟩
    rcases ha a hmem k hk with ⟨-, hj⟩ | ⟨-, hst⟩
    · simp [hn] at hj
    · exact h.not_started hst
  | once hj h =>
    obtain ⟨tj', hj'⟩ := Option.isSome_iff_exists.mp
      ((started_of_frame (Frame.handled hh) k).trans (by rw [hj]; rfl))
    refine .once hj' (Once.handled hs hr hh hj' fun tj₀ hj₀ => ?_)
    obtain rfl := Option.some.inj (hj.symm.trans hj₀)
    exact h
  | closed hn hst he h =>
    have hold : ∀ a ∈ m.log, a ∈ m'.log := fun a ha => hl ▸ List.mem_append_right _ ha
    refine .closed (hnone hn) (hold _ hst) (hold _ he) ?_
    rw [hl]
    refine h.append fun a hmem hk => ?_
    rcases ha a hmem k hk with ⟨-, hj⟩ | ⟨hask, -⟩
    · simp [hn] at hj
    · exact hask

end JobTale

end TaskManager

end Tarantula
