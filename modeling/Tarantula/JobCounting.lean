import Tarantula.JobMoves

/-! What the counter and the marks of a job resource say about the history of its
job, in every reachable state. -/

namespace Tarantula

theorem countP_insert {l : List Nat} (hnd : l.Nodup) {a : Nat} (ha : a ∈ l) {p q : Nat → Bool}
    (hp : p a = false) (hq : ∀ x, q x = (x == a || p x)) : l.countP q = l.countP p + 1 := by
  induction l with
  | nil => simp at ha
  | cons x xs ih =>
    obtain ⟨hx, hxs⟩ := List.nodup_cons.mp hnd
    by_cases hxa : x = a
    · subst hxa
      have hsame : xs.countP q = xs.countP p := by
        apply List.countP_congr
        intro y hy
        have hne : y ≠ x := fun he => hx (he ▸ hy)
        simp [hq, hne]
      simp [hq, hp, hsame]
    · have ha' : a ∈ xs := by
        rcases List.mem_cons.mp ha with h | h
        · exact absurd h.symm hxa
        · exact h
      have hxq : q x = p x := by simp [hq, hxa]
      rw [List.countP_cons, List.countP_cons, ih hxs ha', hxq]
      omega

def reports (dir : Directory) (k : Nat) (st : TccState) (h : List Act) : Nat :=
  (dir.txs k).countP fun id => reported k id st h

/-- The marks are the reports received since the start. Until a decision the counter
counts both kinds of reports, and a decision is sent to every transaction. -/
structure Counting (dir : Directory) (k : Nat) (tj : JobResource) (h : List Act) : Prop where
  confirmed : ∀ (id : Nat) t, tj.joining[id]? = some t →
    (0 < t.confirmed ↔ reported k id .confirmed h = true)
  finished : ∀ (id : Nat) t, tj.joining[id]? = some t →
    (0 < t.finished ↔ reported k id .finished h = true)
  counter : decided k h = false →
    tj.confirmed = reports dir k .confirmed h + reports dir k .finished h
  asked : decided k h = true → ∀ id ∈ dir.txs k, asked k id h = true

theorem Resent.receivedAny {h h' : List Act} (hr : Resent h h') (p : Meta → Bool) :
    receivedAny p h' = Tarantula.receivedAny p h := by
  rcases hr with rfl | ⟨tc, -, rfl⟩
  · rfl
  · rw [receivedAny_askFinish]

theorem Resent.askedAny {h h' : List Act} (hr : Resent h h') (p : Meta → Bool) :
    askedAny p h' = Tarantula.askedAny p h := by
  rcases hr with rfl | ⟨tc, htc, rfl⟩
  · rfl
  · rw [askedAny_askFinish]
    cases hp : p tc with
    | false => rfl
    | true => exact (askedAny_iff.mpr ⟨tc, htc, hp⟩).symm

section Reports

variable {dir : Directory} {k : Nat} {mt : Meta} {st : TccState} {h : List Act}

theorem reported_received (hk : mt.jobId = k) (id : Nat) (st : TccState) :
    reported k id st (.received mt :: h) = (id == mt.id && mt.state == st || reported k id st h) := by
  simp [reported, hk, Bool.beq_comm (a := mt.id)]

theorem reported_other (hst : mt.state ≠ st) (id : Nat) :
    reported k id st (.received mt :: h) = reported k id st h := by
  simp [reported, hst]

theorem reported_duplicate (hk : mt.jobId = k) (hd : reported k mt.id mt.state h = true)
    (id : Nat) (st : TccState) :
    reported k id st (.received mt :: h) = reported k id st h := by
  rw [reported_received hk]
  by_cases he : id = mt.id ∧ mt.state = st
  · rw [he.1, ← he.2, hd]
    simp
  · cases hi : (id == mt.id && mt.state == st) with
    | false => rfl
    | true => exact absurd (by simpa using hi) he

theorem reports_other (hst : mt.state ≠ st) :
    reports dir k st (.received mt :: h) = reports dir k st h := by
  simp only [reports, reported_other hst]

theorem reports_first (hk : mt.jobId = k) (hm : mt.id ∈ dir.txs k)
    (hs : mt.state = st) (hf : reported k mt.id st h = false) :
    reports dir k st (.received mt :: h) = reports dir k st h + 1 := by
  refine countP_insert (dir.nodup k) hm hf fun id => ?_
  rw [reported_received hk, hs]
  simp

theorem reported_asks (asks : List Meta) (id : Nat) (st : TccState) :
    reported k id st ((asks.map Act.askFinish).reverse ++ h) = reported k id st h := by
  rw [reported, receivedAny_append, Asks.receivedAny, Bool.false_or]

theorem reports_asks (asks : List Meta) (st : TccState) :
    reports dir k st ((asks.map Act.askFinish).reverse ++ h) = reports dir k st h := by
  simp only [reports, reported_asks]

end Reports

namespace Counting

variable {dir : Directory} {k : Nat} {mt : Meta} {tj tj' : JobResource} {h h' : List Act}

theorem same (hc : Counting dir k tj h) (hs : SameMarks tj tj')
    (hr : ∀ p, receivedAny p h' = receivedAny p h) (ha : ∀ p, askedAny p h' = askedAny p h) :
    Counting dir k tj' h' := by
  have hmark : ∀ (id : Nat) t', tj'.joining[id]? = some t' → ∃ t, tj.joining[id]? = some t ∧
      t.confirmed = t'.confirmed ∧ t.finished = t'.finished := by
    intro id t' ht'
    have he := hs.marks id
    rw [ht'] at he
    obtain ⟨t, ht, hx⟩ := Option.map_eq_some_iff.mp he.symm
    exact ⟨t, ht, congrArg Prod.fst hx, congrArg Prod.snd hx⟩
  refine ⟨fun id t' ht' => ?_, fun id t' ht' => ?_, fun hd => ?_, fun hd id hid => ?_⟩
  · obtain ⟨t, ht, hx, -⟩ := hmark id t' ht'
    rw [← hx, reported, hr]
    exact hc.confirmed id t ht
  · obtain ⟨t, ht, -, hx⟩ := hmark id t' ht'
    rw [← hx, reported, hr]
    exact hc.finished id t ht
  · simp only [reports, reported, hr]
    rw [hs.confirmed]
    exact hc.counter (by rw [decided, ← ha]; exact hd)
  · rw [Tarantula.asked, ha]
    exact hc.asked (by rw [decided, ← ha]; exact hd) id hid

theorem marks_count (hk : mt.jobId = k) {t t' : TransactionResource}
    (ht : tj.joining[mt.id]? = some t) {st : TccState} (mark : TransactionResource → Nat)
    (hmark : ∀ (id : Nat) t, tj.joining[id]? = some t → (0 < mark t ↔ reported k id st h = true))
    (hown : 0 < mark t' ↔ mt.state = st ∨ 0 < mark t) :
    ∀ (id : Nat) u, (tj.count mt.id t').joining[id]? = some u →
      (0 < mark u ↔ reported k id st (.received mt :: h) = true) := by
  intro id u hu
  rw [reported_received hk]
  simp only [JobResource.count, ExtMap.getElem?_insert] at hu
  split at hu
  · next he =>
    cases hu
    subst he
    simp [hown, hmark _ _ ht]
  · next he =>
    have hne : (id == mt.id) = false := by simpa using fun h => he h.symm
    simp [hne, hmark _ _ hu]

theorem first_confirmed (hc : Counting dir k tj h) {t : TransactionResource}
    (ht : tj.joining[mt.id]? = some t) (hf : t.confirmed = 0) :
    reported k mt.id .confirmed h = false := by
  rw [Bool.eq_false_iff, ne_eq, ← hc.confirmed _ _ ht]
  omega

theorem first_finished (hc : Counting dir k tj h) {t : TransactionResource}
    (ht : tj.joining[mt.id]? = some t) (hf : t.finished = 0) :
    reported k mt.id .finished h = false := by
  rw [Bool.eq_false_iff, ne_eq, ← hc.finished _ _ ht]
  omega

theorem count (hc : Counting dir k tj h) (hk : mt.jobId = k) {t : TransactionResource}
    (t' : TransactionResource) (ht : tj.joining[mt.id]? = some t) (hm : mt.id ∈ dir.txs k)
    (hs : mt.state = .confirmed ∨ mt.state = .finished) (hfirst : reported k mt.id mt.state h = false)
    (hconf : 0 < t'.confirmed ↔ mt.state = .confirmed ∨ 0 < t.confirmed)
    (hfin : 0 < t'.finished ↔ mt.state = .finished ∨ 0 < t.finished) :
    Counting dir k (tj.count mt.id t') (.received mt :: h) := by
  refine ⟨marks_count hk ht (·.confirmed) hc.confirmed hconf, marks_count hk ht (·.finished) hc.finished hfin,
    fun hd => ?_, hc.asked⟩
  have hcounter := hc.counter hd
  have hone := reports_first hk hm rfl hfirst
  simp only [JobResource.count]
  rcases hs with hs | hs
  · rw [hs] at hone
    rw [hone, reports_other (by simp [hs])]
    omega
  · rw [hs] at hone
    rw [hone, reports_other (by simp [hs])]
    omega

theorem count_confirmed (hc : Counting dir k tj h) (hk : mt.jobId = k) {t : TransactionResource}
    (ht : tj.joining[mt.id]? = some t) (hm : mt.id ∈ dir.txs k) (hs : mt.state = .confirmed)
    (hf : t.confirmed = 0) :
    Counting dir k (tj.count mt.id { t with confirmed := t.confirmed + 1 }) (.received mt :: h) :=
  hc.count hk _ ht hm (.inl hs) (hs ▸ hc.first_confirmed ht hf) (by simp [hs]) (by simp [hs])

theorem count_finished (hc : Counting dir k tj h) (hk : mt.jobId = k) {t : TransactionResource}
    (ht : tj.joining[mt.id]? = some t) (hm : mt.id ∈ dir.txs k) (hs : mt.state = .finished)
    (hf : t.finished = 0) :
    Counting dir k (tj.count mt.id { t with finished := t.finished + 1 }) (.received mt :: h) :=
  hc.count hk _ ht hm (.inr hs) (hs ▸ hc.first_finished ht hf) (by simp [hs]) (by simp [hs])

theorem decide (hc : Counting dir k tj h) {asks : List Meta} {st : TccState}
    (ha : Asks dir k st asks) (hne : dir.txs k ≠ []) :
    Counting dir k { tj with confirmed := 0 } ((asks.map Act.askFinish).reverse ++ h) := by
  refine ⟨fun id t ht => ?_, fun id t ht => ?_, fun hd => ?_, fun _ id hid => ?_⟩
  · rw [reported_asks]
    exact hc.confirmed id t ht
  · rw [reported_asks]
    exact hc.finished id t ht
  · rw [decided, askedAny_append, show askedAny _ _ = true from ha.decided hne] at hd
    simp at hd
  · rw [Tarantula.asked, askedAny_append, show askedAny _ _ = true from ha.asked hid, Bool.true_or]

theorem duplicate (hc : Counting dir k tj h) {t : TransactionResource}
    (ht : tj.joining[mt.id]? = some t)
    (hd : mt.state = .confirmed ∧ 0 < t.confirmed ∨ mt.state = .finished ∧ 0 < t.finished) :
    reported k mt.id mt.state h = true := by
  rcases hd with ⟨hs, hd⟩ | ⟨hs, hd⟩
  · rw [hs]
    exact (hc.confirmed _ _ ht).mp hd
  · rw [hs]
    exact (hc.finished _ _ ht).mp hd

theorem move (hc : Counting dir k tj h) (hmem : ∀ id : Nat, (tj.joining[id]?).isSome ↔ id ∈ dir.txs k)
    (hm : JobMove dir k mt tj h tj' h') : Counting dir k tj' h' := by
  have hin : (tj.joining[mt.id]?).isSome → dir.txs k ≠ [] := fun h =>
    List.ne_nil_of_mem ((hmem mt.id).mp h)
  cases hm with
  | quiet hs hr => exact hc.same hs hr.receivedAny hr.askedAny
  | again hk ht hd =>
    have hdup := hc.duplicate ht hd
    refine ⟨fun id t ht => ?_, fun id t ht => ?_, fun hd => ?_, hc.asked⟩
    · rw [reported_duplicate hk hdup]
      exact hc.confirmed id t ht
    · rw [reported_duplicate hk hdup]
      exact hc.finished id t ht
    · simp only [reports, reported_duplicate hk hdup]
      exact hc.counter hd
  | confirm hk ht hs hf _ =>
    exact hc.count_confirmed hk ht ((hmem _).mp (by simp [ht])) hs hf
  | confirmLast hk ht hs hf _ ha =>
    have hcount := hc.count_confirmed hk ht ((hmem _).mp (by simp [ht])) hs hf
    exact hcount.decide ha (hin (by simp [ht]))
  | finish hk ht hs hf _ =>
    exact hc.count_finished hk ht ((hmem _).mp (by simp [ht])) hs hf
  | finishLast hk ht hs hf _ =>
    have hcount := hc.count_finished hk ht ((hmem _).mp (by simp [ht])) hs hf
    exact ⟨hcount.confirmed, hcount.finished, hcount.counter, hcount.asked⟩
  | cancel hk hs ht hm ha =>
    have hother : ∀ id st, st ≠ .canceled →
        reported k id st (.received mt :: h) = reported k id st h :=
      fun id st hst => reported_other (by rw [hs]; exact hst.symm) id
    have hrec : Counting dir k tj (.received mt :: h) := by
      refine ⟨fun id t ht => ?_, fun id t ht => ?_, fun hd => ?_, hc.asked⟩
      · rw [hother _ _ (by simp)]
        exact hc.confirmed id t ht
      · rw [hother _ _ (by simp)]
        exact hc.finished id t ht
      · rw [reports_other (by simp [hs]), reports_other (by simp [hs])]
        exact hc.counter hd
    exact (hrec.same hm (fun _ => rfl) fun _ => rfl).decide ha (hin ht)

end Counting

namespace TaskManager

variable {dir : Directory} {m m' : TaskManager}

theorem history_start (m : TaskManager) (ref : Ref) (j : Nat) :
    history j (m.start ref).log = if (m.heap ref).mt.id = j then [] else history j m.log := by
  have hq : (((Wellformed.startedJob (m.heap ref)).transactions.map
      fun tc => Act.askReserve tc.mt).reverse).filter (Act.concerns j) = [] := by
    simp [List.filter_eq_nil_iff, Act.concerns]
  rw [Wellformed.start_log, history_append _ (by simp), hq, List.nil_append]
  split
  · next he => rw [he, history_started]
  · next he => rw [history_cons (by simpa using he)]; simp [Act.concerns]

/-- `J` holds of the resource and the history of every started job. -/
def Jobwise (J : Nat → JobResource → List Act → Prop) (m : TaskManager) : Prop :=
  ∀ (k : Nat) tj, m.tjs[k]? = some tj → J k tj (history k m.log)

namespace Jobwise

variable {J : Nat → JobResource → List Act → Prop}

theorem of_eq (h : Jobwise J m) (ht : m'.tjs = m.tjs)
    (hl : ∀ j, history j m'.log = history j m.log) : Jobwise J m' :=
  fun k tj hk => by rw [hl]; exact h k tj (ht ▸ hk)

theorem start (h : Jobwise J m) {ref : Ref}
    (hs : J (m.heap ref).mt.id (Wellformed.startedResource ref (m.heap ref)) []) :
    Jobwise J (m.start ref) := by
  intro k tj hk
  rw [Wellformed.start_tjs, ExtMap.getElem?_insert] at hk
  rw [history_start]
  split at hk
  · next he =>
    cases hk
    rw [if_pos he, ← he]
    exact hs
  · next he =>
    rw [if_neg he]
    exact h k tj hk

theorem reloaded (h : Jobwise J m) (hw : Wellformed dir m) {k : Nat}
    {loaded : Option (Task × Nat)} {r : Option TaskResource} (hstored : Stored dir k loaded)
    (hs : ∀ ref (job : Job), job.Numbered dir →
      J job.mt.id (Wellformed.startedResource ref job) [])
    (hr : Reloaded m k loaded m' r) : Jobwise J m' := by
  cases hr with
  | failed => exact h
  | jobless => exact h.of_eq rfl fun _ => rfl
  | @started task rev tr ref rest hn _ hp =>
    obtain ⟨rfl, ht⟩ := hstored (task, rev) rfl
    obtain ⟨hw', -, hlt⟩ := hw.readied hn ht hp
    have hready : Jobwise J (((m.introduce task.mt.id task tr).readyJob tr ref).note
        [.updateTask tr.mt.id]) := h.of_eq rfl fun j => history_updateTask j tr.mt.id m.log
    exact hready.start (hs ref _ (hw'.numbered ref hlt))

/-- The induction over runs, job by job: a property of a just started job that every
move of a job preserves holds of every started job. -/
theorem waited (h : Jobwise J m) (hw : Wellformed dir m) (ht : Timers m) {e : Event}
    (he : e.Numbered dir) (hwait : Waited m e m')
    (hs : ∀ ref (job : Job), job.Numbered dir →
      J job.mt.id (Wellformed.startedResource ref job) [])
    (hmove : ∀ mt loaded m₁ tr, e = .update mt loaded → mt.state ≠ .taskClear →
      m.find mt loaded = some (m₁, some tr) → tr.mt.state ≠ .finished →
      ∀ (k : Nat) tj tj' h', m₁.tjs[k]? = some tj → JobEntry dir m₁ k tj →
        J k tj (history k m₁.log) → JobMove dir k mt tj (history k m₁.log) tj' h' → J k tj' h') :
    Jobwise J m' := by
  cases hwait with
  | idle => exact h
  | recovered _ hr => exact h.reloaded hw he hs hr
  | task => exact h.of_eq rfl fun j => history_updateTask j _ m.log
  | @job i ref tr hi _ =>
    have hq : Jobwise J { m with jobs := m.jobs.eraseIdx i } := h.of_eq rfl fun _ => rfl
    exact hq.start (hs ref _ (hw.numbered ref (hw.queued ref (List.mem_of_getElem? hi))))
  | clear _ =>
    unfold clearResource
    split
    · exact h
    · intro k tj hk
      rw [ExtMap.getElem?_eraseEach] at hk
      split at hk
      · cases hk
      · exact h k tj hk
  | unloaded _ hr => exact h.reloaded hw he hs hr
  | @handled mt loaded m₁ tr _ hc hf hne hh =>
    have hw₁ := hw.find he hf
    have h₁ : Jobwise J m₁ := by
      rcases find_cases hf with ⟨rfl, -⟩ | ⟨-, hr⟩
      · exact h
      · exact h.reloaded hw he hs hr
    intro k tj' hk
    obtain ⟨tj, hj, hm⟩ := handled_move hw₁ (ht.find hw he hf) hh hk
    exact hmove mt loaded m₁ tr rfl hc hf hne k tj tj' _ hj (hw₁.job k tj hj) (h₁ k tj hj) hm

end Jobwise

/-- The invariant of all runs: consistent maps, timers that resend what was asked, and
counters that count. -/
structure Sound (dir : Directory) (m : TaskManager) : Prop where
  wellformed : Wellformed dir m
  timers : Timers m
  counting : Jobwise (Counting dir) m

theorem counting_started (dir : Directory) (ref : Ref) (job : Job) :
    Counting dir job.mt.id (Wellformed.startedResource ref job) [] := by
  have hmark : ∀ (id : Nat) t, (Wellformed.startedResource ref job).joining[id]? = some t →
      t.confirmed = 0 ∧ t.finished = 0 := by
    intro id t ht
    rcases Wellformed.joinAll_entry (Wellformed.startedJob job).transactions id with
      ⟨n, -, he⟩ | ⟨-, he⟩
    · rw [Wellformed.startedResource, he] at ht
      cases ht
      exact ⟨rfl, rfl⟩
    · simp [Wellformed.startedResource, he] at ht
  refine ⟨fun id t ht => ?_, fun id t ht => ?_, fun _ => ?_, fun hd => ?_⟩
  · simp [(hmark id t ht).1, reported, receivedAny]
  · simp [(hmark id t ht).2, reported, receivedAny]
  · simp [Wellformed.startedResource, reports, reported, receivedAny]
  · simp [decided, askedAny] at hd

theorem Sound.empty (dir : Directory) : Sound dir TaskManager.empty :=
  ⟨.empty, .empty, fun k tj hk => by simp [TaskManager.empty] at hk⟩

theorem Sound.reloaded (h : Sound dir m) {k : Nat} {loaded : Option (Task × Nat)}
    {r : Option TaskResource} (hs : Stored dir k loaded) (hr : Reloaded m k loaded m' r) :
    Sound dir m' :=
  ⟨h.wellformed.reloaded hs hr, h.timers.reloaded h.wellformed hs hr,
    h.counting.reloaded h.wellformed hs (fun ref job _ => counting_started dir ref job) hr⟩

theorem Sound.find (h : Sound dir m) {mt : Meta} {loaded : Option (Task × Nat)}
    {r : Option TaskResource} (hs : Stored dir mt.taskId loaded)
    (hf : m.find mt loaded = some (m', r)) : Sound dir m' := by
  rcases find_cases hf with ⟨rfl, -⟩ | ⟨-, hr⟩
  · exact h
  · exact h.reloaded hs hr

theorem Sound.waited (h : Sound dir m) {e : Event} (he : e.Numbered dir) (hw : Waited m e m') :
    Sound dir m' :=
  ⟨h.wellformed.waited he hw, h.timers.waited h.wellformed he hw,
    h.counting.waited h.wellformed h.timers he hw (fun ref job _ => counting_started dir ref job)
      fun _ _ _ _ _ _ _ _ _ _ _ _ _ hent hc hm => hc.move hent.mem hm⟩

end TaskManager

end Tarantula
