import Tarantula.JobHistory

/-! The timers of every reachable coordinator. The timer of a transaction resends a
request of that transaction, and a finish request it resends has been issued since
the last start of the job. -/

namespace Tarantula

namespace Retrying

def job : Retrying → Ref
  | .reserve r _ => r
  | .finish r _ => r

def tc : Retrying → Nat
  | .reserve _ i => i
  | .finish _ i => i

def finishing : Retrying → Bool
  | .reserve _ _ => false
  | .finish _ _ => true

def ask : Retrying → Meta → Act
  | .reserve _ _ => .askReserve
  | .finish _ _ => .askFinish

end Retrying

namespace TaskManager

variable {dir : Directory} {m m' : TaskManager}

theorem Frame.history (h : Frame m m') {j : Nat} {a : Act} (ha : a ∈ history j m.log) :
    a ∈ Tarantula.history j m'.log := by
  obtain ⟨acts, hl, hs⟩ := h.log
  rw [hl, history_append _ (hs j)]
  exact List.mem_append_right _ ha

theorem transactions_update (heap : Ref → Job) (r : Ref) (mt : Meta) (r' : Ref) :
    (Function.update heap r { heap r with mt := mt } r').transactions = (heap r').transactions := by
  by_cases hr : r' = r
  · subst hr
    simp
  · simp [hr]

theorem retry_log {p : Retrying} {tc : Transaction} (h : (m.heap p.job).transactions[p.tc]? = some tc) :
    (m.retry p).log = p.ask tc.mt :: m.log := by
  cases p with
  | reserve ref i =>
    simp only [Retrying.job, Retrying.tc] at h
    simp [retry, h, note, Retrying.ask]
  | finish ref i =>
    simp only [Retrying.job, Retrying.tc] at h
    simp [retry, h, note, Retrying.ask]

structure TimerEntry (m : TaskManager) (k : Nat) (tm : Timeout) : Prop where
  call : tm.p = none → tm.d = 0
  lt : ∀ p, tm.p = some p → p.job < m.next
  tc : ∀ p, tm.p = some p → ∃ tc, (m.heap p.job).transactions[p.tc]? = some tc ∧ tc.mt.id = k ∧
    (p.finishing = true → .askFinish tc.mt ∈ history tc.mt.jobId m.log)

def Timers (m : TaskManager) : Prop :=
  ∀ (k : Nat) tm, m.tms[k]? = some tm → TimerEntry m k tm

def decidedJob (job : Job) (f : Meta → Meta) : Job :=
  job.mapMeta fun mt => { f mt with ringPrefix := job.mt.ringPrefix }

theorem decideAll_log (m : TaskManager) (k : Nat) (t : JobResource) (f : Meta → Meta) :
    (m.decideAll k t f).log =
      (((decidedJob (m.heap t.resource) f).transactions.map (·.mt)).map Act.askFinish).reverse ++
        m.log := by
  simp [decideAll, note, putJob, decidedJob]

theorem asks_decideAll (hw : Wellformed dir m) {k : Nat} {tj t : JobResource} {f : Meta → Meta}
    {st : TccState} (hk : m.tjs[k]? = some tj) (hr : t.resource = tj.resource)
    (hf : ∀ mt, (f mt).id = mt.id ∧ (f mt).jobId = mt.jobId) (hs : ∀ mt, (f mt).state = st) :
    Asks dir k st ((decidedJob (m.heap t.resource) f).transactions.map (·.mt)) := by
  have hj := hw.jobId hk
  have hi := hw.ids hk
  rw [hr]
  refine ⟨?_, ?_, ?_⟩
  · simpa [decidedJob, Job.mapMeta, hf] using hj
  · simp [decidedJob, Job.mapMeta, hs]
  · simpa [decidedJob, Job.mapMeta, hf, Job.ids, Function.comp_def] using hi

namespace Timers

theorem empty : Timers TaskManager.empty := fun k tm h => by simp [TaskManager.empty] at h

theorem mono (h : Timers m) (hn : m.next ≤ m'.next)
    (hx : ∀ r < m.next, (m'.heap r).transactions = (m.heap r).transactions)
    (hl : ∀ j a, a ∈ history j m.log → a ∈ history j m'.log)
    (hs : ∀ (k : Nat) tm', m'.tms[k]? = some tm' →
      ∃ tm, m.tms[k]? = some tm ∧ tm'.p = tm.p ∧ tm'.d = tm.d) : Timers m' := by
  intro k tm' hk
  obtain ⟨tm, htm, hp, hd⟩ := hs k tm' hk
  have h₀ := h k tm htm
  refine ⟨by rw [hp, hd]; exact h₀.call, fun p h' => ?_, fun p h' => ?_⟩
  · exact Nat.lt_of_lt_of_le (h₀.lt p (hp ▸ h')) hn
  · obtain ⟨tc, htc, hid, ha⟩ := h₀.tc p (hp ▸ h')
    exact ⟨tc, by rw [hx _ (h₀.lt p (hp ▸ h')), htc], hid, fun hf => hl _ _ (ha hf)⟩

theorem of_frame (h : Timers m) (hf : Frame m m')
    (hx : ∀ r, (m'.heap r).transactions = (m.heap r).transactions)
    (hs : ∀ (k : Nat) tm', m'.tms[k]? = some tm' →
      ∃ tm, m.tms[k]? = some tm ∧ tm'.p = tm.p ∧ tm'.d = tm.d) : Timers m' :=
  h.mono (Nat.le_of_eq hf.next.symm) (fun r _ => hx r) (fun _ _ ha => hf.history ha) hs

theorem counted (h : Timers m) (hw : Wellformed dir m) {mt : Meta} {tj : JobResource}
    {t : TransactionResource} (t' : TransactionResource)
    (hj : m.tjs[mt.jobId]? = some tj) (ht : tj.joining[mt.id]? = some t) (hr : t'.resource = t.resource) :
    Timers (m.counted mt tj t t') := by
  have hf := Frame.counted t' hj ht hr
  intro k tm hk
  simp only [TaskManager.counted, putJob, receive_tms, ExtMap.getElem?_erase] at hk
  split at hk
  · cases hk
  · next hne =>
    have h₀ := h k tm hk
    refine ⟨h₀.call, fun p hp => hf.next ▸ h₀.lt p hp, fun p hp => ?_⟩
    obtain ⟨tc, htc, hid, ha⟩ := h₀.tc p hp
    refine ⟨tc, ?_, hid, fun hfin => hf.history (ha hfin)⟩
    by_cases hjob : p.job = tj.resource
    · -- the position written by `join` holds the transaction `mt.id`
      have hpos : t.resource ≠ p.tc := by
        intro he
        have hidx := (hw.job _ _ hj).index _ _ ht
        rw [he, ← hw.ids hj, ← hjob, Job.ids, List.getElem?_map, htc] at hidx
        exact hne (by simpa [hid] using hidx.symm)
      have hheap : ((m.counted mt tj t t').heap p.job).transactions =
          (m.heap p.job).transactions.modify t.resource
            (fun tc => { tc with mt := { tc.mt with state := mt.state } }) := by
        simp [TaskManager.counted, putJob, JobResource.count, hjob, Job.setState]
      rw [hheap, List.getElem?_modify, htc]
      simp [hpos]
    · have hheap : (m.counted mt tj t t').heap p.job = m.heap p.job := by
        simp [TaskManager.counted, putJob, JobResource.count, hjob]
      rw [hheap, htc]

/-- The loops of `start`, `confirmed` and `canceled`: each rewrites the transactions
of one job object and installs a timer for each of them. -/
theorem arm (h : Timers m) (ref : Ref) (job : Job) (c : Nat → Retrying) (tms : IdMap Timeout)
    (hr : ref < m.next) (hn : m'.next = m.next) (hh : m'.heap = Function.update m.heap ref job)
    (hids : job.ids = (m.heap ref).ids) (ht : m'.tms = armAll c job.transactions tms)
    (hold : ∀ (k : Nat) tm, tms[k]? = some tm →
      m.tms[k]? = some tm ∨ (tm.p = none ∧ tm.d = 0))
    (hc : ∀ i, (c i).job = ref ∧ (c i).tc = i)
    (hask : ∀ i, ∀ tc ∈ job.transactions, (c i).finishing = true →
      .askFinish tc.mt ∈ history tc.mt.jobId m'.log)
    (hl : ∀ r tc, r < m.next → tc ∈ (m.heap r).transactions → tc.mt.id ∉ (m.heap ref).ids →
      .askFinish tc.mt ∈ history tc.mt.jobId m.log →
        .askFinish tc.mt ∈ history tc.mt.jobId m'.log) : Timers m' := by
  intro k tm hk
  rw [ht] at hk
  rcases armAll_cases c job.transactions tms k with ⟨i, tc, hi, hid, he⟩ | ⟨hnot, he⟩
  · rw [he] at hk
    cases hk
    refine ⟨by simp, fun p hp => ?_, fun p hp => ?_⟩
    · cases hp
      rw [(hc i).1, hn]
      exact hr
    · cases hp
      refine ⟨tc, ?_, hid, hask i tc (List.mem_of_getElem? hi)⟩
      rw [hh, (hc i).1, (hc i).2, Function.update_self, hi]
  · rw [he] at hk
    rcases hold k tm hk with hk | ⟨hp, hd⟩
    · have h₀ := h k tm hk
      refine ⟨h₀.call, fun p hp => hn ▸ h₀.lt p hp, fun p hp => ?_⟩
      obtain ⟨tc, htc, hid, ha⟩ := h₀.tc p hp
      have hnot' : tc.mt.id ∉ (m.heap ref).ids := by
        rw [hid, ← hids]
        exact hnot
      have hne : p.job ≠ ref := by
        intro he
        rw [he] at htc
        exact hnot' (List.mem_map_of_mem (List.mem_of_getElem? htc))
      refine ⟨tc, by rw [hh, Function.update_of_ne hne, htc], hid, fun hfin => ?_⟩
      exact hl _ tc (h₀.lt p hp) (List.mem_of_getElem? htc) hnot' (ha hfin)
    · exact ⟨fun _ => hd, fun p h' => by simp [hp] at h', fun p h' => by simp [hp] at h'⟩

theorem decideAll (h : Timers m) (hw : Wellformed dir m) {k : Nat} {tj t : JobResource}
    {f : Meta → Meta} (st : TccState) (hk : m.tjs[k]? = some tj) (hx : t.fixed = tj.fixed)
    (hf : ∀ mt, (f mt).id = mt.id ∧ (f mt).jobId = mt.jobId) (hs : ∀ mt, (f mt).state = st) :
    Timers (m.decideAll k t f) := by
  have hr : t.resource = tj.resource := congrArg Prod.fst hx
  have ha := asks_decideAll hw hk hr hf hs
  have hframe := Frame.decideAll hk hx hf
  refine h.arm t.resource (decidedJob (m.heap t.resource) f) (.finish t.resource) m.tms
    (by rw [hr]; exact (hw.job _ _ hk).lt) rfl rfl ?_ rfl
    (fun _ _ h => .inl h) (fun _ => ⟨rfl, rfl⟩) (fun _ tc htc _ => ?_)
    (fun _ _ _ _ _ h => hframe.history h)
  · simp [decidedJob, Job.mapMeta, Job.ids, hf]
  · have hjob := ha.job tc.mt (List.mem_map_of_mem htc)
    rw [decideAll_log, ha.history, if_pos hjob]
    apply List.mem_append_left
    simpa using ⟨tc, htc, rfl⟩

theorem start (h : Timers m) (hw : Wellformed dir m) {ref : Ref} (hr : ref < m.next) :
    Timers (m.start ref) := by
  have hnum := hw.numbered ref hr
  refine h.arm ref (Wellformed.startedJob (m.heap ref)) (.reserve ref)
    (m.tms.insert (m.heap ref).mt.id ⟨0, 0, none⟩) hr rfl rfl ?_ rfl ?_
    (fun _ => ⟨rfl, rfl⟩) (fun _ _ _ h => by cases h) ?_
  · simp [Wellformed.startedJob, Job.mapMeta, Job.ids]
  · intro k tm hk
    rw [ExtMap.getElem?_insert] at hk
    split at hk
    · cases hk
      exact .inr ⟨rfl, rfl⟩
    · exact .inl hk
  · -- a job object with other transactions belongs to another job, whose history goes on
    intro r tc hlt htc hnot ha
    have hnum' := hw.numbered r hlt
    have hne : tc.mt.jobId ≠ (m.heap ref).mt.id := by
      intro he
      have hmem : tc.mt.id ∈ (m.heap r).ids := List.mem_map_of_mem htc
      rw [hnum'.ids, ← hnum'.jobId tc htc, he, ← hnum.ids] at hmem
      exact hnot hmem
    rw [Wellformed.start_log, history_append _ (by simp), history_cons (by simpa using hne.symm)]
    apply List.mem_append_right
    simpa [Act.concerns] using ha

theorem timeout (h : Timers m) {k : Nat} {mt : Meta} (ht : m.timeout k mt = some m') :
    Timers m' := by
  have hf := Frame.timeout ht
  cases timeout_cases ht with
  | absent => exact h
  | last =>
    refine h.of_frame hf (fun _ => rfl) fun a tm' ha => ?_
    rw [ExtMap.getElem?_erase] at ha
    split at ha
    · cases ha
    · exact ⟨tm', ha, rfl, rfl⟩
  | @resend tm p m₁ htm hp hr =>
    obtain ⟨tjs, rfl⟩ := retried_eq hr
    refine h.of_frame hf (fun r => ?_) fun a tm' ha => ?_
    · cases p <;> rfl
    rw [retry_tms, ExtMap.getElem?_insert] at ha
    split at ha
    · next hka =>
      cases ha
      exact ⟨tm, hka ▸ htm, rfl, rfl⟩
    · exact ⟨tm', ha, rfl, rfl⟩

theorem finished (h : Timers m) {k : Nat} {t : JobResource} (hm : m.finished k t = some m') :
    Timers m' := by
  have hf := Frame.finished hm
  obtain ⟨tr, m₁, -, hm₁, hm'⟩ := finished_cases hm
  have h₁ : (∀ r, (m₁.heap r).transactions = (m.heap r).transactions) ∧
      m₁.tms = m.tms.erase (m.heap t.resource).mt.id := by
    rw [hm₁]
    exact ⟨transactions_update m.heap t.resource _, rfl⟩
  have h₂ : (∀ r, (m'.heap r).transactions = (m₁.heap r).transactions) ∧ m'.tms = m₁.tms := by
    rcases hm' with ⟨next, -, rfl⟩ | ⟨-, rfl⟩
    · exact ⟨transactions_update m₁.heap next _, rfl⟩
    · exact ⟨fun _ => rfl, rfl⟩
  refine h.of_frame hf (fun r => (h₂.1 r).trans (h₁.1 r)) fun a tm' ha => ?_
  rw [h₂.2, h₁.2, ExtMap.getElem?_erase] at ha
  split at ha
  · cases ha
  · exact ⟨tm', ha, rfl, rfl⟩

theorem closeAll_sub {tcs : List Transaction} {tms : IdMap Timeout} {k : Nat} {tm : Timeout}
    (h : (closeAll tcs tms)[k]? = some tm) : tms[k]? = some tm := by
  rw [closeAll, ExtMap.getElem?_eraseEach] at h
  split at h
  · cases h
  · exact h

theorem stop (h : Timers m) {k : Nat} {t : JobResource} (hk : m.tjs[k]? = some t)
    (hm : m.stop k t = some m') : Timers m' := by
  have hf := Frame.stop hk hm
  obtain ⟨tr, m₁, -, hm₁, rfl⟩ := stop_cases hm
  have hput : (m.putJob k { t with canceled := true } (m.heap t.resource)).heap = m.heap :=
    Function.update_eq_self t.resource m.heap
  have h₁ : (∀ r, (m₁.heap r).transactions = (m.heap r).transactions) ∧ m₁.tms = m.tms := by
    subst hm₁
    split
    · exact ⟨fun r => by rw [hput], rfl⟩
    · next v hv =>
      exact ⟨fun r => (transactions_update _ v _ r).trans (by rw [hput]), rfl⟩
  refine h.of_frame hf h₁.1 fun a tm ha => ⟨tm, ?_, rfl, rfl⟩
  rw [← h₁.2]
  exact closeAll_sub ha

theorem canceled (h : Timers m) (hw : Wellformed dir m) {k : Nat} {c : Meta} {t : JobResource}
    (hk : m.tjs[k]? = some t) (hm : m.canceled k c t = some m') : Timers m' := by
  obtain ⟨t', tr, hc, htr, rfl⟩ := canceled_cases hm
  have hf := Frame.abandon htr k
  have h₁ : Timers ((m.abandon (m.heap t'.resource) tr).note [.canceled k]) :=
    h.of_frame hf (fun _ => rfl) fun _ tm ha => ⟨tm, closeAll_sub ha, rfl, rfl⟩
  exact h₁.decideAll (hw.of_frame hf) .canceled hk (JobResource.cancel_fixed hc)
    (fun _ => ⟨rfl, rfl⟩) fun _ => rfl

theorem receive (h : Timers m) (mt : Meta) : Timers (m.receive mt) := by
  refine h.of_frame (.receive m mt) (fun _ => rfl) fun a tm ha => ?_
  rw [receive_tms, ExtMap.getElem?_erase] at ha
  split at ha
  · cases ha
  · exact ⟨tm, ha, rfl, rfl⟩

theorem handled (h : Timers m) (hw : Wellformed dir m) {mt : Meta} (hh : Handled m mt m') :
    Timers m' := by
  cases hh with
  | duplicate => exact h.receive mt
  | confirm hj ht => exact h.counted hw _ hj ht rfl
  | @confirmLast tj t hj ht =>
    have hc := h.counted hw { t with confirmed := t.confirmed + 1 } hj ht rfl
    have hf := (Frame.counted { t with confirmed := t.confirmed + 1 } hj ht rfl).trans
      (.note _ [.confirmed mt.jobId] (by simp))
    refine decideAll ?_ (hw.of_frame hf) .confirmed ?_ rfl (fun _ => ⟨rfl, rfl⟩) fun _ => rfl
    · exact hc.of_frame (.note _ _ (by simp)) (fun _ => rfl) fun _ tm ha => ⟨tm, ha, rfl, rfl⟩
    · simp [note, TaskManager.counted, putJob]
  | finish hj ht => exact h.counted hw _ hj ht rfl
  | @finishLast tj t _ hj ht _ _ _ hm =>
    have hc := h.counted hw { t with finished := t.finished + 1 } hj ht rfl
    exact hc.finished hm
  | cancel hj _ hm => exact (h.receive mt).canceled (hw.of_frame (.receive m mt)) hj hm
  | timeout _ hm => exact h.timeout hm
  | jobTimeout _ hm => exact h.timeout hm
  | stop _ hm hj he => exact (h.timeout hm).stop hj he
  | ignored => exact h

theorem introduce (h : Timers m) (k : Nat) (task : Task) (tr : TaskResource) :
    Timers (m.introduce k task tr) := by
  refine h.mono (Nat.le_add_right _ _) (fun r hr => ?_) (fun _ _ ha => ha)
    fun _ tm ha => ⟨tm, ha, rfl, rfl⟩
  simp [TaskManager.introduce, putTask, alloc, hr]

theorem readyJob (h : Timers m) (tr : TaskResource) (r : Ref) : Timers (m.readyJob tr r) :=
  h.of_frame (.readyJob m tr r) (transactions_update m.heap r _) fun _ tm ha => ⟨tm, ha, rfl, rfl⟩

theorem reloaded (h : Timers m) (hw : Wellformed dir m) {k : Nat} {loaded : Option (Task × Nat)}
    {r : Option TaskResource} (hs : Stored dir k loaded) (hr : Reloaded m k loaded m' r) :
    Timers m' := by
  cases hr with
  | failed => exact h
  | jobless => exact h.introduce _ _ _
  | @started task rev tr ref rest hn _ hp =>
    obtain ⟨rfl, ht⟩ := hs (task, rev) rfl
    obtain ⟨hw', -, hlt⟩ := hw.readied hn ht hp
    have hready := (h.introduce task.mt.id task tr).readyJob tr ref
    refine start ?_ hw' hlt
    exact hready.of_frame (.note _ _ (by simp)) (fun _ => rfl) fun _ tm ha => ⟨tm, ha, rfl, rfl⟩

theorem find (h : Timers m) (hw : Wellformed dir m) {mt : Meta} {loaded : Option (Task × Nat)}
    {r : Option TaskResource} (hs : Stored dir mt.taskId loaded)
    (hf : m.find mt loaded = some (m', r)) : Timers m' := by
  rcases find_cases hf with ⟨rfl, -⟩ | ⟨-, hr⟩
  · exact h
  · exact h.reloaded hw hs hr

theorem waited (h : Timers m) (hw : Wellformed dir m) {e : Event} (he : e.Numbered dir)
    (hwait : Waited m e m') : Timers m' := by
  cases hwait with
  | idle => exact h
  | recovered _ hr => exact h.reloaded hw he hr
  | @task task tr ref hn hp _ =>
    have hready := (h.introduce task.mt.id task tr).readyJob tr ref
    refine hready.mono (Nat.le_refl _) (fun _ _ => rfl) (fun j a ha => ?_)
      fun _ tm ha => ⟨tm, ha, rfl, rfl⟩
    exact (Frame.note _ [.updateTask tr.mt.id] (by simp)).history ha
  | @job i ref tr hi ht =>
    refine start ?_ (hw.of_frame (.dequeue m i)) (hw.queued ref (List.mem_of_getElem? hi))
    exact h.of_frame (.dequeue m i) (fun _ => rfl) fun _ tm ha => ⟨tm, ha, rfl, rfl⟩
  | clear _ =>
    unfold clearResource
    split
    · exact h
    · exact h.mono (Nat.le_refl _) (fun _ _ => rfl) (fun _ _ ha => ha)
        fun _ tm ha => ⟨tm, ha, rfl, rfl⟩
  | unloaded _ hr => exact h.reloaded hw he hr
  | handled _ hf _ hh => exact (h.find hw he hf).handled (hw.find he hf) hh

end Timers

end TaskManager

end Tarantula
