import Tarantula.Progress

/-! A step of the coordinator from the side of the timers of one job: they are left alone,
or one is closed, expires or resends, or a start or a decision installs all of them anew. -/

namespace Tarantula

/-- The acts that ask a transaction of job `k` or begin a phase of the job. -/
def Act.times (k : Nat) : Act → Bool
  | .askReserve tc | .askFinish tc => tc.jobId == k
  | .started j | .confirmed j | .canceled j => j == k
  | _ => false

section ArmAll

variable {c : Nat → Retrying} {tcs : List Transaction} {tms : IdMap Timeout}

theorem armAll_get (hnd : (tcs.map (·.mt.id)).Nodup) {i : Nat} {tc : Transaction} (hi : tcs[i]? = some tc) :
    (armAll c tcs tms)[tc.mt.id]? = some ⟨tc.mt.timeout, tc.mt.retries, some (c i)⟩ := by
  have hid : (tcs.map (·.mt.id))[i]? = some tc.mt.id := by simp [hi]
  rcases armAll_cases c tcs tms tc.mt.id with ⟨n, tc', hn, hk, he⟩ | ⟨hnot, -⟩
  · have hid' : (tcs.map (·.mt.id))[n]? = some tc.mt.id := by simp [hn, hk]
    have hin : i = n := (List.getElem?_inj (List.getElem?_eq_some_iff.mp hid).1 hnd).mp (hid.trans hid'.symm)
    subst hin
    obtain rfl := Option.some.inj (hi.symm.trans hn)
    exact he
  · exact absurd (List.mem_map_of_mem (List.mem_of_getElem? hi)) hnot

theorem armAll_other {id : Nat} (h : id ∉ tcs.map (·.mt.id)) : (armAll c tcs tms)[id]? = tms[id]? := by
  rcases armAll_cases c tcs tms id with ⟨n, tc, hn, rfl, -⟩ | ⟨-, he⟩
  · exact absurd (List.mem_map_of_mem (List.mem_of_getElem? hn)) h
  · exact he

end ArmAll

namespace TaskManager

variable {dir : Directory} {Q : TaskManager → Meta → Prop} {m m' : TaskManager} {k : Nat}

/-- The timers of all transactions of job `k` are new: they resend what `c` says, as often
as the transactions of the job object `ref` allow. -/
def Rearmed (dir : Directory) (k : Nat) (m : TaskManager) (ref : Ref) (c : Nat → Retrying) : Prop :=
  ∀ (i id : Nat), (dir.txs k)[i]? = some id → ∃ tc, (m.heap ref).transactions[i]? = some tc ∧
    m.tms[id]? = some ⟨tc.mt.timeout, tc.mt.retries, some (c i)⟩

/-- The step logs nothing that concerns the timers of job `k`. -/
def Untimed (k : Nat) (m m' : TaskManager) : Prop :=
  ∃ acts, m'.log = acts ++ m.log ∧ ∀ a ∈ acts, a.times k = false

def Kept (k : Nat) (m m' : TaskManager) : Prop :=
  ∀ tj', m'.tjs[k]? = some tj' → ∃ tj, m.tjs[k]? = some tj ∧ tj'.resource = tj.resource

/-- What a step does to the timers of the transactions of job `k`. -/
inductive TimerStep (dir : Directory) (Q : TaskManager → Meta → Prop) (k : Nat) (m m' : TaskManager) : Prop
  | quiet (hkeep : Kept k m m') (hh : history k m'.log = history k m.log)
      (htms : ∀ id ∈ dir.txs k, m'.tms[id]? = m.tms[id]?) (hl : Untimed k m m')
  | closed {mt} (hkeep : Kept k m m') (hQ : Q m mt) (hk : mt.jobId = k)
      (hs : mt.state = .confirmed ∨ mt.state = .finished)
      (hh : history k m'.log = .received mt :: history k m.log ∨ .finished k ∈ history k m'.log)
      (htms : ∀ id ∈ dir.txs k, m'.tms[id]? = if mt.id = id then none else m.tms[id]?)
      (hl : Untimed k m m')
  | stopped (hT : ∃ tr, m'.trs[dir.task k]? = some tr ∧ tr.mt.state = .finished)
      (hh : history k m'.log = history k m.log)
      (htms : ∀ id ∈ dir.txs k, m'.tms[id]? = none) (hl : Untimed k m m')
  | expired {key tm} (hkeep : Kept k m m') (htm : m.tms[key]? = some tm) (hz : ¬ (0 < tm.d ∧ 0 < tm.r))
      (htms : ∀ id ∈ dir.txs k, m'.tms[id]? = if key = id then none else m.tms[id]?)
      (hl : m'.log = m.log)
  | resent {key tm p tc} (hkeep : Kept k m m') (htm : m.tms[key]? = some tm) (hp : tm.p = some p)
      (hr : 0 < tm.r) (hid : tc.id = key) (hk : tc.jobId = k) (hmem : key ∈ dir.txs k)
      (hh : Resent (history k m.log) (history k m'.log))
      (htms : ∀ id ∈ dir.txs k, m'.tms[id]? =
        if key = id then some { tm with r := tm.r - 1 } else m.tms[id]?)
      (hl : m'.log = p.ask tc :: m.log)
  | started {ref} {asks : List Meta} (hj : (m'.tjs[k]?).map (·.resource) = some ref)
      (hjob : ∀ tc ∈ asks, tc.jobId = k) (ha : asks.map (·.id) = dir.txs k)
      (ht : Rearmed dir k m' ref (.reserve ref))
      (hl : ∃ acts, (∀ a ∈ acts, a.times k = false) ∧
        m'.log = (asks.map Act.askReserve).reverse ++ .started k :: (acts ++ m.log))
  | decided {mt tj turn st asks} (hkeep : Kept k m m') (hQ : Q m mt) (hk : mt.jobId = k)
      (hj : m.tjs[k]? = some tj)
      (hs : turn = .canceled k ∧ mt.state = .canceled ∨ turn = .confirmed k ∧ mt.state = .confirmed ∧
        tj.joinParties = tj.confirmed + 1 ∧ ∃ t, tj.joining[mt.id]? = some t ∧ t.confirmed = 0)
      (ha : Asks dir k st asks) (ht : Rearmed dir k m' tj.resource (.finish tj.resource))
      (hl : m'.log = (asks.map Act.askFinish).reverse ++ turn :: .received mt :: m.log)

theorem Kept.of_eq (h : m'.tjs[k]? = m.tjs[k]?) : Kept k m m' := fun tj' hj' => ⟨tj', h ▸ hj', rfl⟩

theorem Kept.of_frame (hf : Frame m m') (k : Nat) : Kept k m m' := by
  intro tj' hj'
  have hx := hf.tjs k
  rw [hj'] at hx
  obtain ⟨tj, hj, hfix⟩ := Option.map_eq_some_iff.mp hx.symm
  exact ⟨tj, hj, (congrArg Prod.fst hfix).symm⟩

theorem timeout_job (hw : Wellformed dir m) (ht : Timers m) {key T : Nat} (hk : key ∈ dir.jobs T) {mt : Meta}
    (h : m.timeout key mt = some m') : m' = m ∨ m' = { m with tms := m.tms.erase key } := by
  cases timeout_cases h with
  | absent => exact .inl rfl
  | last => exact .inr rfl
  | @resend tm p m₁ htm hp hr =>
    obtain ⟨tc, htc, hid, -⟩ := (ht key tm htm).tc p hp
    have hmem : tc.mt.id ∈ (m.heap p.job).ids := List.mem_map_of_mem (List.mem_of_getElem? htc)
    rw [(hw.numbered _ ((ht key tm htm).lt p hp)).ids, hid] at hmem
    exact absurd hmem (dir.apart hk _)

theorem finished_tms {key : Nat} {t : JobResource} (h : m.finished key t = some m') :
    m'.tms = m.tms.erase (m.heap t.resource).mt.id := by
  obtain ⟨tr, m₁, -, rfl, ⟨next, -, rfl⟩ | ⟨-, rfl⟩⟩ := finished_cases h <;> rfl

namespace TimerStep

theorem of_same (hkeep : Kept k m m') (hlog : m'.log = m.log) (htms : m'.tms = m.tms) :
    TimerStep dir Q k m m' :=
  .quiet hkeep (by rw [hlog]) (fun _ _ => by rw [htms]) ⟨[], hlog, by simp⟩

theorem other (hkeep : Kept k m m') {acts : List Act} (hl : m'.log = acts ++ m.log)
    (ha : ∀ a ∈ acts, a.times k = false ∧ a.concerns k = false)
    (htms : ∀ id ∈ dir.txs k, m'.tms[id]? = m.tms[id]?) : TimerStep dir Q k m m' := by
  refine .quiet hkeep ?_ htms ⟨acts, hl, fun a h => (ha a h).1⟩
  have hst : .started k ∉ acts := fun hx => by simpa [Act.times] using (ha _ hx).1
  rw [hl, history_append m.log hst, List.filter_eq_nil_iff.mpr, List.nil_append]
  intro a h
  simp [(ha a h).2]

theorem timeout (hs : Sound dir m) (hu : dir.Unique) {key : Nat} {mt : Meta}
    (h : m.timeout key mt = some m') : TimerStep dir Q k m m' := by
  have hres := (timeout_move hs.timers h k).1
  have hkeep := Kept.of_frame (Frame.timeout h) k
  rcases timeout_entry h with ⟨-, rfl⟩ | ⟨tm, htm, ⟨hz, rfl⟩ | ⟨⟨-, hr⟩, p, m₁, hp, hm₁, rfl⟩⟩
  · exact of_same hkeep rfl rfl
  · refine .expired hkeep htm hz (fun id _ => ?_) rfl
    rw [ExtMap.getElem?_erase]
  · obtain ⟨tc, htc, hid, -⟩ := (hs.timers key tm htm).tc p hp
    obtain ⟨tjs, rfl⟩ := retried_eq hm₁
    have hlog : ({ m with tjs, tms := m.tms.insert key { tm with r := tm.r - 1 } }.retry p).log =
        [p.ask tc.mt] ++ m.log := retry_log htc
    have htms : ∀ id : Nat,
        ({ m with tjs, tms := m.tms.insert key { tm with r := tm.r - 1 } }.retry p).tms[id]? =
          if key = id then some { tm with r := tm.r - 1 } else m.tms[id]? := by
      intro id
      rw [retry_tms, ExtMap.getElem?_insert]
    have hnum := hs.wellformed.numbered _ ((hs.timers key tm htm).lt p hp)
    have hmem : key ∈ dir.txs tc.mt.jobId := by
      rw [hnum.jobId tc (List.mem_of_getElem? htc), ← hnum.ids, ← hid]
      exact List.mem_map_of_mem (List.mem_of_getElem? htc)
    by_cases hk : tc.mt.jobId = k
    · exact .resent hkeep htm hp hr hid hk (hk ▸ hmem) hres (fun id _ => htms id) hlog
    · refine other hkeep hlog (fun a ha => ?_) fun id hid' => ?_
      · rw [List.mem_singleton.mp ha]
        cases p <;> simp [Retrying.ask, Act.times, Act.concerns, hk]
      · rw [htms, if_neg]
        rintro rfl
        exact hk (hu.txs hmem hid')

theorem close (hkeep : ∀ k, Kept k m m') (hu : dir.Unique) {mt : Meta} (hQ : Q m mt)
    (hid : mt.id ∈ dir.txs mt.jobId)
    (hs : mt.state = .confirmed ∨ mt.state = .finished) {acts : List Act} (hl : m'.log = acts ++ m.log)
    (ha : ∀ a ∈ acts, ∀ k, a.times k = false ∧ (mt.jobId ≠ k → a.concerns k = false))
    (hh : history mt.jobId m'.log = .received mt :: history mt.jobId m.log ∨
      .finished mt.jobId ∈ history mt.jobId m'.log)
    (htms : ∀ j, ∀ id ∈ dir.txs j, m'.tms[id]? = if mt.id = id then none else m.tms[id]?) :
    TimerStep dir Q k m m' := by
  by_cases hk : mt.jobId = k
  · subst hk
    exact .closed (hkeep _) hQ rfl hs hh (htms _) ⟨acts, hl, fun a h => (ha a h _).1⟩
  · refine other (hkeep k) hl (fun a h => ⟨(ha a h k).1, (ha a h k).2 hk⟩) fun id hid' => ?_
    rw [htms k id hid', if_neg]
    rintro rfl
    exact hk (hu.txs hid hid')

theorem decide (m₁ : TaskManager) (hw : Wellformed dir m₁) (hu : dir.Unique) {mt : Meta} (hQ : Q m mt)
    {tj tj₁ t : JobResource} {f : Meta → Meta} {turn : Act} {st : TccState} (hj : m.tjs[mt.jobId]? = some tj)
    (hs : turn = .canceled mt.jobId ∧ mt.state = .canceled ∨
      turn = .confirmed mt.jobId ∧ mt.state = .confirmed ∧ tj.joinParties = tj.confirmed + 1 ∧
        ∃ t, tj.joining[mt.id]? = some t ∧ t.confirmed = 0)
    (hj₁ : m₁.tjs[mt.jobId]? = some tj₁) (ht : t.resource = tj₁.resource) (hr : tj₁.resource = tj.resource)
    (hf : ∀ mt, (f mt).id = mt.id ∧ (f mt).jobId = mt.jobId) (hst : ∀ mt, (f mt).state = st)
    (hkeep : Kept k m (m₁.decideAll mt.jobId t f)) (hl : m₁.log = turn :: .received mt :: m.log)
    (htms : ∀ id, id ∉ dir.txs mt.jobId → m₁.tms[id]? = m.tms[id]?) :
    TimerStep dir Q k m (m₁.decideAll mt.jobId t f) := by
  have ha := asks_decideAll hw hj₁ ht hf hst
  have hlog := (decideAll_log m₁ mt.jobId t f).trans (by rw [hl])
  have hids : (decidedJob (m₁.heap t.resource) f).transactions.map (·.mt.id) = dir.txs mt.jobId := by
    simpa [List.map_map, Function.comp_def] using ha.ids
  by_cases hk : mt.jobId = k
  · subst hk
    refine .decided hkeep hQ rfl hj hs ha (fun i id hi => ?_) hlog
    rw [← hids, List.getElem?_map] at hi
    obtain ⟨tc, htc, rfl⟩ := Option.map_eq_some_iff.mp hi
    refine ⟨tc, ?_, ?_⟩
    · rw [← hr, ← ht]
      simpa [decideAll, note, putJob, decidedJob] using htc
    · rw [← hr, ← ht]
      exact armAll_get (hids ▸ dir.nodup _) htc
  · refine other hkeep (hlog.trans (List.append_assoc _ [turn, .received mt] m.log).symm)
      (fun a h => ?_) fun id hid => ?_
    · simp only [List.mem_append, List.mem_reverse, List.mem_map, List.mem_cons, List.not_mem_nil,
        or_false] at h
      rcases h with ⟨tc, ⟨tc', htc', rfl⟩, rfl⟩ | rfl | rfl
      · have hjob := ha.job _ (List.mem_map_of_mem htc')
        simp [Act.times, Act.concerns, hjob, hk]
      · rcases hs with ⟨rfl, -⟩ | ⟨rfl, -⟩ <;> simp [Act.times, Act.concerns, hk]
      · simp [Act.times, Act.concerns, hk]
    · have hnot : id ∉ dir.txs mt.jobId := fun h => hk (hu.txs h hid)
      rw [← htms id hnot]
      exact armAll_other (hids ▸ hnot)

theorem start (m₀ : TaskManager) (hw : Wellformed dir m₀) (hu : dir.Unique) {ref : Ref} (hr : ref < m₀.next)
    {acts : List Act} (htjs : m₀.tjs = m.tjs) (hl : m₀.log = acts ++ m.log)
    (ha : ∀ a ∈ acts, ∀ k, a.times k = false ∧ a.concerns k = false) (htms : m₀.tms = m.tms) :
    TimerStep dir Q k m (m₀.start ref) := by
  have hnum := hw.numbered ref hr
  have hids : (Wellformed.startedJob (m₀.heap ref)).transactions.map (·.mt.id) = dir.txs (m₀.jobId ref) :=
    (Wellformed.startedJob_numbered hnum).ids
  have hlog : (m₀.start ref).log = (((Wellformed.startedJob (m₀.heap ref)).transactions.map (·.mt)).map
      Act.askReserve).reverse ++ .started (m₀.jobId ref) :: (acts ++ m.log) := by
    rw [← hl, Wellformed.start_log, List.map_map]
    rfl
  have hjob : ∀ tc ∈ (Wellformed.startedJob (m₀.heap ref)).transactions, tc.mt.jobId = m₀.jobId ref :=
    (Wellformed.startedJob_numbered hnum).jobId
  by_cases hk : m₀.jobId ref = k
  · subst hk
    refine @TimerStep.started dir Q _ m _ ref ((Wellformed.startedJob (m₀.heap ref)).transactions.map (·.mt))
      ?_ (by simpa using hjob) ?_ (fun i id hi => ?_) ⟨acts, fun a h => (ha a h _).1, hlog⟩
    · rw [Wellformed.start_tjs, ExtMap.getElem?_insert]
      simp [jobId, Wellformed.startedResource]
    · simpa [List.map_map, Function.comp_def] using hids
    · rw [← hids, List.getElem?_map] at hi
      obtain ⟨tc, htc, rfl⟩ := Option.map_eq_some_iff.mp hi
      refine ⟨tc, ?_, armAll_get (hids ▸ dir.nodup _) htc⟩
      simpa [TaskManager.start, note, putJob, Wellformed.startedJob] using htc
  · refine other (.of_eq ?_) (hlog.trans (List.append_assoc _ (.started (m₀.jobId ref) :: acts) m.log).symm)
      (fun a h => ?_) fun id hid => ?_
    · rw [Wellformed.start_tjs, ExtMap.getElem?_insert, htjs]
      exact if_neg hk
    · simp only [List.mem_append, List.mem_reverse, List.mem_map, List.mem_cons] at h
      rcases h with ⟨tc, ⟨tc', htc', rfl⟩, rfl⟩ | rfl | h
      · simp [Act.times, Act.concerns, hjob tc' htc', hk]
      · simp [Act.times, Act.concerns, hk]
      · exact ha a h k
    · have hnot : id ∉ dir.txs (m₀.jobId ref) := fun h => hk (hu.txs h hid)
      have hkey : m₀.jobId ref ≠ id := by
        rintro rfl
        exact dir.apart hnum.mem k hid
      have harm : (m₀.start ref).tms[id]? = (m₀.tms.insert (m₀.jobId ref) ⟨0, 0, none⟩)[id]? :=
        armAll_other (hids ▸ hnot)
      rw [harm, ExtMap.getElem?_insert, if_neg hkey, htms]

theorem stop (hs : Sound dir m) (hu : dir.Unique) {mt : Meta} {m₁ : TaskManager} {tj : JobResource}
    (hm : m.timeout mt.jobId mt = some m₁) (hj : m₁.tjs[mt.jobId]? = some tj)
    (he : m₁.stop mt.jobId tj = some m') : TimerStep dir Q k m m' := by
  have hw₁ := hs.wellformed.of_frame (.timeout hm)
  have hkeep := Kept.of_frame ((Frame.timeout hm).trans (.stop hj he)) k
  have hjob := hw₁.mem_jobs hj
  have hsame : m₁.log = m.log ∧ ∀ id ∈ dir.txs k, m₁.tms[id]? = m.tms[id]? := by
    rcases timeout_job hs.wellformed hs.timers hjob hm with rfl | rfl
    · exact ⟨rfl, fun _ _ => rfl⟩
    · refine ⟨rfl, fun id hid => ?_⟩
      rw [ExtMap.getElem?_erase, if_neg]
      rintro rfl
      exact dir.apart hjob k hid
  have htask := hw₁.taskId hj
  obtain ⟨tr, m₂, -, hm₂, rfl⟩ := stop_cases he
  have h₂ : m₂.trs = m₁.trs ∧ m₂.tms = m₁.tms ∧ m₂.log = m₁.log := by
    rw [hm₂]
    split <;> exact ⟨rfl, rfl, rfl⟩
  have hlog := congrArg ([Act.ended tr.mt.id, .updateTask tr.mt.id, .stopped mt.jobId] ++ ·)
    (h₂.2.2.trans hsame.1)
  have hids : (m₁.heap tj.resource).transactions.map (·.mt.id) = dir.txs mt.jobId := hw₁.ids hj
  have hclose : ∀ id, (closeAll (m₁.heap tj.resource).transactions m₂.tms)[id]? =
      if id ∈ dir.txs mt.jobId then none else m₁.tms[id]? := by
    intro id
    rw [closeAll, ExtMap.getElem?_eraseEach, hids, h₂.2.1]
  by_cases hk : mt.jobId = k
  · subst hk
    refine .stopped ⟨{ tr with canceled := true, mt := { tr.mt with state := .finished } }, ?_, rfl⟩ ?_
      (fun id hid => (hclose id).trans (if_pos hid)) ⟨_, hlog, by simp [Act.times]⟩
    · rw [← htask]
      simp [end_, note, putTask]
    · refine (congrArg (history mt.jobId) hlog).trans ?_
      simp
  · refine other hkeep hlog (by simp [Act.times, Act.concerns]) fun id hid => ?_
    rw [← hsame.2 id hid]
    exact (hclose id).trans (if_neg fun h => hk (hu.txs h hid))

theorem handled (hs : Sound dir m) (hu : dir.Unique) {mt : Meta} (hQ : Q m mt) (h : Handled m mt m') :
    TimerStep dir Q k m m' := by
  have hw := hs.wellformed
  have hkeep := Kept.of_frame (Frame.handled h)
  have hmem : ∀ {tj : JobResource}, m.tjs[mt.jobId]? = some tj → (tj.joining[mt.id]?).isSome →
      mt.id ∈ dir.txs mt.jobId := fun hj ht => ((hw.job _ _ hj).mem _).mp ht
  have hreceived : ∀ a ∈ [Act.received mt], ∀ k, a.times k = false ∧
    (mt.jobId ≠ k → a.concerns k = false) := by
    simp [Act.times, Act.concerns]
  have herase : ∀ j, ∀ id ∈ dir.txs j, (m.tms.erase mt.id)[id]? = if mt.id = id then none else m.tms[id]? :=
    fun _ id _ => ExtMap.getElem?_erase ..
  have hhist : history mt.jobId (.received mt :: m.log) = .received mt :: history mt.jobId m.log := by simp
  cases h with
  | duplicate hj ht hd =>
    exact close hkeep hu hQ (hmem hj (by simp [ht])) (hd.imp And.left And.left) rfl hreceived
      (.inl hhist) herase
  | confirm hj ht hst =>
    exact close hkeep hu hQ (hmem hj (by simp [ht])) (.inl hst) rfl hreceived (.inl hhist) herase
  | finish hj ht hst =>
    exact close hkeep hu hQ (hmem hj (by simp [ht])) (.inr hst) rfl hreceived (.inl hhist) herase
  | @confirmLast tj t hj ht hst hf hl =>
    have hid := hmem hj (by simp [ht])
    have hc := Frame.counted { t with confirmed := t.confirmed + 1 } hj ht rfl
    refine decide ((m.counted mt tj t { t with confirmed := t.confirmed + 1 }).note [.confirmed mt.jobId])
      (hw.of_frame (hc.trans (.note _ _ (by simp)))) hu hQ hj (.inr ⟨rfl, hst, hl, t, ht, hf⟩)
      (show _ = some (tj.count mt.id { t with confirmed := t.confirmed + 1 }) by simp [note, counted, putJob])
      rfl rfl (fun _ => ⟨rfl, rfl⟩) (fun _ => rfl) (hkeep k) rfl fun id hnot => ?_
    have hne : mt.id ≠ id := by
      rintro rfl
      exact hnot hid
    exact (ExtMap.getElem?_erase ..).trans (if_neg hne)
  | @finishLast tj t _ hj ht hst hf hl hm =>
    have hid := hmem hj (by simp [ht])
    have hc := Frame.counted { t with finished := t.finished + 1 } hj ht rfl
    have hwc := hw.of_frame hc
    have hj' : (m.counted mt tj t { t with finished := t.finished + 1 }).tjs[mt.jobId]? =
        some (tj.count mt.id { t with finished := t.finished + 1 }) := by simp [counted, putJob]
    obtain ⟨-, acts, hlog, hacts⟩ := finished_log hm
    have hacts' : m'.log = (acts ++ [.finished mt.jobId, .received mt]) ++ m.log := by
      rw [hlog, List.append_assoc]
      rfl
    have hquiet : ∀ a ∈ acts, ∀ k, a.times k = false ∧ a.concerns k = false := by
      rcases hacts with ⟨T, rfl⟩ | ⟨T, rfl⟩ <;> simp [Act.times, Act.concerns]
    refine close hkeep hu hQ hid (.inr hst) hacts' (fun a h k => ?_) (.inr ?_) fun j id hid' => ?_
    · rcases List.mem_append.mp h with h | h
      · exact ⟨(hquiet a h k).1, fun _ => (hquiet a h k).2⟩
      · simp only [List.mem_cons, List.not_mem_nil, or_false] at h
        rcases h with rfl | rfl <;> simp [Act.times, Act.concerns]
    · rw [finished_mem_history, hacts', since_append]
      · simp
      · intro h
        rcases List.mem_append.mp h with h | h
        · simpa [Act.times] using (hquiet _ h mt.jobId).1
        · simp at h
    · rw [finished_tms hm, ExtMap.getElem?_erase, if_neg]
      · exact herase j id hid'
      · rintro rfl
        exact dir.apart (hwc.mem_jobs hj') j ((hwc.job _ _ hj').id ▸ hid')
  | @cancel tj _ hj hst hm =>
    have hwr := hw.of_frame (.receive m mt)
    obtain ⟨tj', tr, hc, htr, rfl⟩ := canceled_cases hm
    have hr : tj'.resource = tj.resource := congrArg Prod.fst (JobResource.cancel_fixed hc)
    refine decide (((m.receive mt).abandon ((m.receive mt).heap tj'.resource) tr).note [.canceled mt.jobId])
      (hwr.of_frame (.abandon htr mt.jobId)) hu hQ hj (.inl ⟨rfl, hst⟩)
      hj hr rfl (fun _ => ⟨rfl, rfl⟩) (fun _ => rfl) (hkeep k) rfl fun id hnot => ?_
    obtain ⟨t, ht, -⟩ := Option.map_eq_some_iff.mp hc
    have hne : mt.id ≠ id := by
      rintro rfl
      exact hnot (hmem hj (by simp [ht]))
    have hids : ((m.receive mt).heap tj'.resource).transactions.map (·.mt.id) = dir.txs mt.jobId := by
      rw [hr]
      exact hwr.ids hj
    have hclose : (closeAll ((m.receive mt).heap tj'.resource).transactions (m.tms.erase mt.id))[id]? =
        m.tms[id]? := by
      rw [closeAll, ExtMap.getElem?_eraseEach, hids, if_neg hnot, ExtMap.getElem?_erase, if_neg hne]
    exact hclose
  | timeout _ hm => exact timeout hs hu hm
  | jobTimeout _ hm => exact timeout hs hu hm
  | stop _ hm hj he => exact stop hs hu hm hj he
  | ignored => exact of_same (hkeep k) rfl rfl

theorem reload (hw : Wellformed dir m) (hu : dir.Unique) {key : Nat} {loaded : Option (Task × Nat)}
    {r : Option TaskResource} (hs : Stored dir key loaded) (h : m.reload key loaded = some (m', r)) :
    TimerStep dir Q k m m' := by
  rcases reload_enters h with rfl | ⟨task, rev, tr, rfl, hn, -, -, ⟨-, rfl, -⟩ | ⟨ref, rest, hp, rfl⟩⟩
  · exact of_same (.of_eq rfl) rfl rfl
  · exact of_same (.of_eq rfl) rfl rfl
  · obtain ⟨rfl, ht⟩ := hs (task, rev) rfl
    obtain ⟨hw', -, hlt⟩ := hw.readied hn ht hp
    have hlog : (((m.introduce task.mt.id task tr).readyJob tr ref).note [.updateTask tr.mt.id]).log =
        [.updateTask tr.mt.id] ++ m.log := rfl
    exact start _ hw' hu hlt rfl hlog (by simp [Act.times, Act.concerns]) rfl

theorem of_micro (hs : Sound dir m) (hu : dir.Unique) (h : Micro dir Q m m') : TimerStep dir Q k m m' := by
  have hw := hs.wellformed
  cases h with
  | idle => exact of_same (.of_eq rfl) rfl rfl
  | reload hst _ h => exact reload hw hu hst h
  | @task t _ ht hk h =>
    obtain ⟨tr, ref, -, -, -, -, rfl⟩ := task_enters h
    have hlog : (((m.introduce t.mt.id t tr).readyJob tr ref).schedule tr ref).log =
        [.updateTask tr.mt.id] ++ m.log := rfl
    exact other (.of_eq rfl) hlog (by simp [Act.times, Act.concerns]) fun _ _ => rfl
  | @job i ref tr hi ht hr =>
    have hlog : ({ m with jobs := m.jobs.eraseIdx i } : TaskManager).log = [] ++ m.log := rfl
    exact start _ (hw.of_frame (.dequeue m i)) hu (hw.queued ref (List.mem_of_getElem? hi)) rfl hlog
      (by simp) rfl
  | clear rkey =>
    unfold clearResource
    split
    · exact of_same (.of_eq rfl) rfl rfl
    · refine of_same (fun tj' hj' => ⟨tj', ?_, rfl⟩) rfl rfl
      rw [ExtMap.getElem?_eraseEach] at hj'
      split at hj'
      · cases hj'
      · exact hj'
  | handled hQ h => exact handled hs hu hQ h

end TimerStep

end TaskManager

end Tarantula
