import Tarantula.TimerActs

/-! The invariant of all runs of the coordinator: its maps are sound, and every timer is stored
under its entry of `tms` and raises the timeout of a job or a transaction. -/

namespace Tarantula

namespace TaskManager

variable {dir : Directory} {m m' : TaskManager}

/-- What a timer sends: the timeout of a job or of one of its transactions. -/
def TimerEvent (dir : Directory) (mt : Meta) : Prop :=
  mt.jobId ∈ dir.jobs mt.taskId ∧ (mt.state = .jobTimeout ∨ mt.state = .transactionTimeout)

theorem timerMeta_event (hw : Wellformed dir m) {k : Nat} (hk : (m.tjs[k]?).isSome) (id : Nat) {st : TccState}
    (hs : st = .jobTimeout ∨ st = .transactionTimeout) :
    TimerEvent dir (m.timerMeta k id st) := by
  obtain ⟨tj, hj⟩ := Option.isSome_iff_exists.mp hk
  refine ⟨?_, hs⟩
  simp only [timerMeta, taskOf, hj, hw.taskId hj]
  exact hw.mem_jobs hj

theorem armed_event (hw : Wellformed dir m) {e : Event} {a : Act} (ha : Tells dir m e a)
    (he : ∀ mt loaded, e = .update mt loaded → mt.state = .transactionTimeout → TimerEvent dir mt)
    {mt : Meta} (h : .arm mt ∈ m.timerOps e a) : TimerEvent dir mt := by
  have hask : ∀ tc : Meta, ((m.tjs[tc.jobId]?).isSome ∨
      ∃ mt loaded, e = .update mt loaded ∧ mt.state = .transactionTimeout ∧ mt.id = tc.id) →
      TimerEvent dir (m.askMeta e tc) := by
    intro tc hj
    have hnew : (m.tjs[tc.jobId]?).isSome → TimerEvent dir (m.timerMeta tc.jobId tc.id .transactionTimeout) :=
      fun hj => timerMeta_event hw hj tc.id (.inr rfl)
    unfold askMeta
    split
    · next mt₀ loaded =>
      split
      · next hx => exact he mt₀ loaded rfl hx.1
      · next hx =>
        rcases hj with hj | ⟨mt₁, _, heq, hs, hid'⟩
        · exact hnew hj
        · cases heq
          exact absurd ⟨hs, hid'⟩ hx
    · next hne =>
      rcases hj with hj | ⟨mt₁, _, heq, -⟩
      · exact hnew hj
      · exact absurd heq (hne _ _)
  cases a with
  | started k =>
    cases List.mem_singleton.mp h
    exact timerMeta_event hw ha 0 (.inl rfl)
  | askReserve tc =>
    cases List.mem_singleton.mp h
    exact hask tc ha
  | askFinish tc =>
    cases List.mem_singleton.mp h
    exact hask tc ha
  | received mt => simp [timerOps] at h
  | confirmed k => simp [timerOps] at h
  | canceled k => simp [timerOps] at h
  | finished k => simp [timerOps] at h
  | stopped k => simp [timerOps] at h
  | ended T => simp [timerOps] at h
  | updateTask T => simp [timerOps] at h

theorem timerOps_stores (hw : Wellformed dir m) {e : Event} {a : Act} (ha : Tells dir m e a)
    (key : Nat) (p : Prop) :
    StoredAfter Meta.timerKey key (m.timerOps e a) p ↔ a.Stores dir key p := by
  have hask : ∀ tc, (m.askMeta e tc).timerKey = tc.id := by
    intro tc
    unfold askMeta
    split
    · split
      · next hx => simp [Meta.timerKey, hx.1, hx.2]
      · rfl
    · rfl
  have hclose : ∀ (ids : List Nat) p, StoredAfter Meta.timerKey key (ids.map .close) p ↔ p ∧ key ∉ ids := by
    intro ids
    induction ids with
    | nil => simp [StoredAfter]
    | cons id ids ih =>
      intro p
      refine (ih (p ∧ id ≠ key)).trans ?_
      rw [and_assoc, List.mem_cons, not_or, ne_comm]
  have hids : ∀ k : Nat, (m.tjs[k]?).isSome → m.idsOf k = dir.txs k := by
    intro k hk
    obtain ⟨tj, hj⟩ := Option.isSome_iff_exists.mp hk
    simp only [idsOf, hj, hw.ids hj]
  cases a with
  | canceled k =>
    rw [timerOps, hclose, hids k ha]
    rfl
  | stopped k =>
    rw [timerOps, hclose, hids k ha]
    rfl
  | askReserve tc => simp [timerOps, StoredAfter, TimerOp.Stores, Act.Stores, hask]
  | askFinish tc => simp [timerOps, StoredAfter, TimerOp.Stores, Act.Stores, hask]
  | started k => simp [timerOps, StoredAfter, TimerOp.Stores, Act.Stores, timerMeta, Meta.timerKey]
  | received mt => rfl
  | finished k => rfl
  | confirmed k => rfl
  | ended T => rfl
  | updateTask T => rfl

theorem timerOps_entries (hw : Wellformed dir m) {e : Event} {acts : List Act}
    (ha : ∀ a ∈ acts, Tells dir m e a) (key : Nat) (p : Prop) :
    StoredAfter Meta.timerKey key (acts.reverse.flatMap (m.timerOps e)) p ↔ EntryAfter dir key acts p := by
  induction acts with
  | nil => exact .rfl
  | cons a acts ih =>
    have hrest := propext (ih fun a' ha' => ha a' (List.mem_cons_of_mem _ ha'))
    have hsplit : StoredAfter Meta.timerKey key ((a :: acts).reverse.flatMap (m.timerOps e)) p ↔
        StoredAfter Meta.timerKey key (m.timerOps e a)
          (StoredAfter Meta.timerKey key (acts.reverse.flatMap (m.timerOps e)) p) := by
      simp [StoredAfter]
    rw [hsplit, hrest]
    exact timerOps_stores hw (ha a (List.mem_cons_self ..)) key _

theorem Sound.requeue (h : Sound dir m) {jobs : List Ref} (hj : jobs ⊆ m.jobs) :
    Sound dir { m with jobs := jobs } :=
  ⟨h.wellformed.of_frame ⟨fun _ => rfl, rfl, fun _ hr => .inl (hj hr), fun _ => rfl, fun _ => rfl, [], rfl,
    by simp⟩,
    h.timers.mono (Nat.le_refl _) (fun _ _ => rfl) (fun _ _ ha => ha) fun _ tm ht => ⟨tm, ht, rfl, rfl⟩,
    h.counting⟩

end TaskManager

/-- What a message in `updates` is: a timeout, a report, or the end of a task. -/
def Notice.Proper (dir : Directory) (q : Notice) : Prop :=
  match q.timer with
  | some _ => TaskManager.TimerEvent dir q.mt
  | none => System.isReport q.mt = true ∨ q.mt.state = .taskClear

theorem Notice.Proper.event {dir : Directory} {q : Notice} (h : q.Proper dir)
    (hs : q.mt.state = .jobTimeout ∨ q.mt.state = .transactionTimeout) : TaskManager.TimerEvent dir q.mt := by
  unfold Notice.Proper at h
  split at h
  · exact h
  · rcases h with h | h <;> rcases hs with hs | hs <;> simp [System.isReport, hs] at h

namespace Coordinator

open TaskManager (TimerEvent)

variable {dir : Directory} {c c' : Coordinator} {e : CoordinatorEvent}

inductive Stepped (c : Coordinator) : CoordinatorEvent → Coordinator → Prop
  | fired {i n mt} (h : c.wheel.running[i]? = some (n, mt)) :
      Stepped c (.fire i) { c with wheel := c.wheel.fire i, updates := c.updates.offer ⟨some n, mt⟩ }
  | reported {mt updates} (h : c.updates.send ⟨none, mt⟩ = .sent updates) :
      Stepped c (.report mt) { c with updates := updates }
  | saved {i T mt} (h : c.saving[i]? = some T) (hs : mt.state = .taskClear) :
      Stepped c (.saved i) { c with saving := c.saving.eraseIdx i, updates := c.updates.offer ⟨none, mt⟩ }
  | sent {i ref} (h : c.tm.jobs[c.sent + i]? = some ref) (hc : c.sent < chanCap) :
      Stepped c (.send i) { c with
        tm := { c.tm with jobs := (c.tm.jobs.eraseIdx (c.sent + i)).insertIdx c.sent ref },
          sent := c.sent + 1 }
  | dropped {i} (hc : ¬ c.sent < chanCap) :
      Stepped c (.send i) { c with tm := { c.tm with jobs := c.tm.jobs.eraseIdx (c.sent + i) } }
  | iterated {e b m'} (n : Nat) (hb : c.iteration e = some b) (hw : c.tm.wait b = some m')
      (hn : ∀ mt loaded, b ≠ .update mt loaded) : Stepped c e ({ c with sent := n }.follow b m')
  | updated {q rest loaded m'} (hq : c.updates.buf = q :: rest)
    (hw : c.tm.wait (.update q.mt loaded) = some m') :
      Stepped c (.update loaded)
        ({ c with updates := { c.updates with buf := rest } }.follow (.update q.mt loaded) m')

theorem step_cases (h : c.step e = some c') : Stepped c e c' := by
  cases e with
  | fire i =>
    simp only [step] at h
    split at h
    · cases h
    · next n mt hi =>
      cases h
      exact .fired hi
  | report mt =>
    simp only [step] at h
    split at h
    · next updates hs =>
      cases h
      exact .reported hs
    · cases h
  | saved i =>
    simp only [step] at h
    split at h
    · cases h
    · next T hi =>
      cases h
      exact .saved hi rfl
  | send i =>
    simp only [step, sendJob] at h
    split at h
    · cases h
    · next ref hi =>
      split at h
      · next hc =>
        cases h
        exact .sent hi hc
      · next hc =>
        cases h
        exact .dropped hc
  | task task =>
    obtain ⟨m', hw, rfl⟩ := Option.map_eq_some_iff.mp h
    exact .iterated c.sent rfl hw (by simp)
  | recovery taskId loaded =>
    obtain ⟨m', hw, rfl⟩ := Option.map_eq_some_iff.mp h
    exact .iterated c.sent rfl hw (by simp)
  | job =>
    simp only [step] at h
    split at h
    · obtain ⟨m', hw, rfl⟩ := Option.map_eq_some_iff.mp h
      exact .iterated (c.sent - 1) rfl hw (by simp)
    · cases h
  | update loaded =>
    simp only [step] at h
    split at h
    · next q updates hr =>
      obtain ⟨rest, hq, rfl⟩ := Chan.receive_some hr
      obtain ⟨m', hw, rfl⟩ := Option.map_eq_some_iff.mp h
      exact .updated hq hw
    · cases h

structure Sound (dir : Directory) (c : Coordinator) : Prop where
  tm : TaskManager.Sound dir c.tm
  wheel : c.wheel.Proper Meta.timerKey
  entries : ∀ key : Nat, (c.wheel.current[key]?).isSome ↔ (c.tm.tms[key]?).isSome
  running : ∀ t ∈ c.wheel.running, TimerEvent dir t.2
  queued : ∀ q ∈ c.updates.buf, q.Proper dir
  opened : c.updates.closed = false

theorem acts_eq {m : TaskManager} {acts : List Act} (h : m.log = acts ++ c.tm.log) :
    c.acts m = acts.reverse := by
  rw [Coordinator.acts, TaskManager.acts_eq h]

theorem expire_running (m : TaskManager) (w : Wheel Nat Meta) (b : Event) :
    (expire m w b).running = w.running := by
  unfold expire
  split
  · split <;> rfl
  · rfl

theorem expire_proper {m : TaskManager} {w : Wheel Nat Meta} (h : w.Proper Meta.timerKey) (b : Event) :
    (expire m w b).Proper Meta.timerKey := by
  unfold expire
  split
  · split
    · exact h.forget _
    · exact h
  · exact h

theorem expire_isSome (m : TaskManager) (w : Wheel Nat Meta) (b : Event) (key : Nat) :
    ((expire m w b).current[key]?).isSome ↔ (w.current[key]?).isSome ∧ ¬ TaskManager.Expired m b key := by
  unfold expire
  split
  · next mt _ =>
    split
    · next hn =>
      rw [Wheel.isSome_forget]
      refine and_congr_right fun _ => not_congr ⟨fun h => ⟨h, ?_⟩, And.left⟩
      exact h ▸ Option.isNone_iff_eq_none.mp hn
    · next hn =>
      refine ⟨fun h => ⟨h, ?_⟩, And.left⟩
      rintro ⟨rfl, hx⟩
      exact hn (Option.isNone_iff_eq_none.mpr hx)
  · next hne =>
    refine ⟨fun h => ⟨h, ?_⟩, And.left⟩
    cases b with
    | update mt loaded => exact absurd rfl (hne mt loaded)
    | recovery => exact id
    | task => exact id
    | job => exact id

namespace Sound

theorem empty (dir : Directory) : Sound dir empty :=
  ⟨.empty dir, .empty, by simp [Coordinator.empty, Wheel.empty, TaskManager.empty],
    by simp [Coordinator.empty, Wheel.empty], by simp [Coordinator.empty, Chan.make], rfl⟩

theorem logs (h : Sound dir c) {b : Event} {m' : TaskManager} (hg : b.Genuine dir c.tm)
    (hb : ∀ mt loaded, b = .update mt loaded → mt.state = .jobTimeout ∨ mt.state = .transactionTimeout →
      TimerEvent dir mt) (hw : c.tm.wait b = some m') :
    TaskManager.Logs dir c.tm b m' (TaskManager.Expired m' b) :=
  .waited h.tm hg.numbered (fun mt loaded he hs => ⟨_, (hb mt loaded he (.inl hs)).1⟩)
    (TaskManager.wait_cases hw)

theorem follow (h : Sound dir c) {b : Event} {m' : TaskManager} (hg : b.Genuine dir c.tm)
    (hb : ∀ mt loaded, b = .update mt loaded → mt.state = .jobTimeout ∨ mt.state = .transactionTimeout →
      TimerEvent dir mt) (hw : c.tm.wait b = some m') : Sound dir (c.follow b m') := by
  have hs' := h.tm.waited hg.numbered (TaskManager.wait_cases hw)
  obtain ⟨acts, hlog, hacts, hent⟩ := h.logs hg hb hw
  refine ⟨hs', expire_proper (h.wheel.run _) b, fun key => ?_, fun t ht => ?_, h.queued, h.opened⟩
  · rw [Coordinator.follow, expire_isSome, Wheel.isSome_run, acts_eq hlog,
      TaskManager.timerOps_entries hs'.wellformed hacts, propext (h.entries key)]
    by_cases hx : TaskManager.Expired m' b key
    · exact ⟨fun h => absurd hx h.2, fun h => absurd h (hx.not_isSome)⟩
    · rw [← propext (hent key hx)]
      exact and_iff_left hx
  · rw [Coordinator.follow, expire_running] at ht
    rcases Wheel.of_mem_run ht with ht | ht
    · exact h.running t ht
    · obtain ⟨a, ha, hop⟩ := List.mem_flatMap.mp ht
      rw [acts_eq hlog, List.mem_reverse] at ha
      exact TaskManager.armed_event hs'.wellformed (hacts a ha)
        (fun mt loaded he hs => hb mt loaded he (.inr hs)) hop

theorem counted (h : Sound dir c) (n : Nat) : Sound dir { c with sent := n } :=
  ⟨h.tm, h.wheel, h.entries, h.running, h.queued, h.opened⟩

theorem dequeued (h : Sound dir c) {q : Notice} {rest : List Notice} (hq : c.updates.buf = q :: rest) :
    Sound dir { c with updates := { c.updates with buf := rest } } :=
  ⟨h.tm, h.wheel, h.entries, h.running, fun q' hq' => h.queued q' (hq ▸ List.mem_cons_of_mem _ hq'), h.opened⟩

theorem step (h : Sound dir c) (hl : Legal dir c e) (hs : c.step e = some c') : Sound dir c' := by
  have hoffer : ∀ (q : Notice) wheel saving, wheel.Proper Meta.timerKey → wheel.current = c.wheel.current →
      (∀ t ∈ wheel.running, TimerEvent dir t.2) → q.Proper dir →
      Sound dir { c with wheel := wheel, saving := saving, updates := c.updates.offer q } := by
    intro q wheel saving hproper hcur hrun hq
    refine ⟨h.tm, hproper, fun key => hcur ▸ h.entries key, hrun, fun q' hq' => ?_,
      (Chan.offer_closed _ _).trans h.opened⟩
    rcases Chan.mem_offer hq' with hq' | rfl
    · exact h.queued q' hq'
    · exact hq
  cases step_cases hs with
  | @fired i n mt hi =>
    exact hoffer _ _ _ (h.wheel.fire i) rfl (fun t ht => h.running t (List.mem_of_mem_eraseIdx ht))
      (h.running _ (List.mem_of_getElem? hi))
  | @reported mt updates hsend =>
    obtain rfl := Chan.send_sent hsend
    refine ⟨h.tm, h.wheel, h.entries, h.running, fun q hq => ?_, h.opened⟩
    rcases List.mem_append.mp hq with hq | hq
    · exact h.queued q hq
    · rw [List.mem_singleton.mp hq]
      exact .inl hl.2
  | saved hi hst => exact hoffer _ _ _ h.wheel rfl h.running (.inr hst)
  | sent hi hc =>
    refine ⟨h.tm.requeue fun r hr => ?_, h.wheel, h.entries, h.running, h.queued, h.opened⟩
    rcases List.eq_or_mem_of_mem_insertIdx hr with rfl | hr
    · exact List.mem_of_getElem? hi
    · exact List.mem_of_mem_eraseIdx hr
  | dropped =>
    exact ⟨h.tm.requeue fun r hr => List.mem_of_mem_eraseIdx hr, h.wheel, h.entries, h.running,
      h.queued, h.opened⟩
  | @iterated _ b m' n hb hw hn =>
    exact (h.counted n).follow (hl.1 b hb) (fun mt loaded he => absurd he (hn mt loaded)) hw
  | @updated q rest loaded m' hq hw =>
    refine (h.dequeued hq).follow (hl.1 _ (by simp [iteration, hq])) (fun mt loaded' he hst => ?_) hw
    cases he
    exact (h.queued q (hq ▸ List.mem_cons_self ..)).event hst

theorem of_reaches {ok : Coordinator → CoordinatorEvent → Prop} (hok : ∀ c e, ok c e → Legal dir c e)
    (h : Reaches Coordinator.step ok .empty c) : Sound dir c :=
  Reaches.invariant (I := Sound dir) h (.empty dir) fun _ _ _ hs he hstep => hs.step (hok _ _ he) hstep

end Sound

/-- In every reachable state the entries of `tms` are exactly those for which a timer has been
made that is neither closed nor expired. -/
theorem entries_of_reaches (h : Reaches step (Legal dir) empty c) (key : Nat) :
    (c.wheel.current[key]?).isSome ↔ (c.tm.tms[key]?).isSome :=
  (Sound.of_reaches (fun _ _ h => h) h).entries key

end Coordinator

end Tarantula
