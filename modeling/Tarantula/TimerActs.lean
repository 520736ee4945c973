import Tarantula.Coordinator
import Tarantula.TimerSteps

/-! What the acts of an iteration say about the timers. They account for every entry of `tms`
that comes or goes, but for the one a timeout deletes without stopping its timer. -/

namespace Tarantula

/-- There is an entry under `key` after the act, `p` saying whether there was one before. -/
def Act.Stores (dir : Directory) (key : Nat) (p : Prop) : Act → Prop
  | .started k => p ∨ k = key
  | .askReserve tc | .askFinish tc => p ∨ tc.id = key
  | .received mt => p ∧ mt.id ≠ key
  | .finished k => p ∧ k ≠ key
  | .canceled k | .stopped k => p ∧ key ∉ dir.txs k
  | .confirmed _ | .ended _ | .updateTask _ => p

/-- There is an entry under `key` after the acts, given latest first. -/
def EntryAfter (dir : Directory) (key : Nat) (acts : List Act) (p : Prop) : Prop :=
  acts.foldr (fun a p => a.Stores dir key p) p

theorem entryAfter_append (dir : Directory) (key : Nat) (acts acts' : List Act) (p : Prop) :
    EntryAfter dir key (acts ++ acts') p = EntryAfter dir key acts (EntryAfter dir key acts' p) :=
  List.foldr_append

theorem entryAfter_asks {dir : Directory} {key : Nat} {ask : Meta → Act}
    (hask : ∀ tc p, (ask tc).Stores dir key p ↔ p ∨ tc.id = key) (tcs : List Meta) (p : Prop) :
    EntryAfter dir key (tcs.map ask).reverse p ↔ p ∨ key ∈ tcs.map (·.id) := by
  induction tcs generalizing p with
  | nil => simp [EntryAfter]
  | cons tc tcs ih =>
    rw [List.map_cons, List.reverse_cons, entryAfter_append, ih]
    have htc : EntryAfter dir key [ask tc] p ↔ p ∨ tc.id = key := hask tc p
    rw [htc, List.map_cons, List.mem_cons, or_assoc, eq_comm]

section Entries

variable {tcs : List Transaction} {tms : IdMap Timeout} {key : Nat}

theorem isSome_armAll {c : Nat → Retrying} :
    ((armAll c tcs tms)[key]?).isSome ↔ (tms[key]?).isSome ∨ key ∈ tcs.map (·.mt.id) := by
  rcases armAll_cases c tcs tms key with ⟨n, tc, hn, rfl, he⟩ | ⟨hnot, he⟩
  · rw [he]
    exact ⟨fun _ => .inr (List.mem_map_of_mem (List.mem_of_getElem? hn)), fun _ => rfl⟩
  · rw [he]
    simp only [hnot, or_false]

theorem isSome_closeAll :
    ((closeAll tcs tms)[key]?).isSome ↔ (tms[key]?).isSome ∧ key ∉ tcs.map (·.mt.id) := by
  rw [closeAll, ExtMap.getElem?_eraseEach]
  split <;> simp [*]

theorem isSome_erase {k : Nat} : ((tms.erase k)[key]?).isSome ↔ (tms[key]?).isSome ∧ k ≠ key := by
  rw [ExtMap.getElem?_erase]
  split <;> simp [*]

theorem isSome_insert {k : Nat} {tm : Timeout} :
    ((tms.insert k tm)[key]?).isSome ↔ (tms[key]?).isSome ∨ k = key := by
  rw [ExtMap.getElem?_insert]
  split <;> simp [*]

end Entries

namespace TaskManager

variable {dir : Directory} {m m' : TaskManager}

/-- What holds after an iteration that handles `e`, for each of its acts. -/
def Tells (dir : Directory) (m : TaskManager) (e : Event) : Act → Prop
  | .started k | .canceled k | .stopped k => (m.tjs[k]?).isSome
  | .askReserve tc | .askFinish tc => (m.tjs[tc.jobId]?).isSome ∨
      ∃ mt loaded, e = .update mt loaded ∧ mt.state = .transactionTimeout ∧ mt.id = tc.id
  | .received mt => mt.id ∈ dir.txs mt.jobId
  | .confirmed _ | .finished _ | .ended _ | .updateTask _ => True

/-- The acts of a step that handles `e` account for the entries of `tms`, those in `ex` aside. -/
def Logs (dir : Directory) (m : TaskManager) (e : Event) (m' : TaskManager) (ex : Nat → Prop) : Prop :=
  ∃ acts, m'.log = acts ++ m.log ∧ (∀ a ∈ acts, Tells dir m' e a) ∧
    ∀ key : Nat, ¬ ex key → ((m'.tms[key]?).isSome ↔ EntryAfter dir key acts (m.tms[key]?).isSome)

/-- The entry that a timeout may have deleted without stopping its timer. -/
def Expired (m : TaskManager) : Event → Nat → Prop
  | .update mt _, key => mt.timerKey = key ∧ m.tms[key]? = none
  | _, _ => False

theorem Expired.not_isSome {e : Event} {key : Nat} (h : Expired m e key) : ¬ (m.tms[key]?).isSome := by
  cases e with
  | update => simp [h.2]
  | recovery => exact h.elim
  | task => exact h.elim
  | job => exact h.elim

theorem Tells.mono {e : Event} (hm : ∀ k : Nat, (m.tjs[k]?).isSome → (m'.tjs[k]?).isSome) :
    ∀ {a}, Tells dir m e a → Tells dir m' e a
  | .started k, h | .canceled k, h | .stopped k, h => hm k h
  | .askReserve _, h => h.imp_left (hm _)
  | .askFinish _, h => h.imp_left (hm _)
  | .received _, h => h
  | .confirmed _, _ | .finished _, _ | .ended _, _ | .updateTask _, _ => trivial

namespace Logs

variable {e : Event} {ex : Nat → Prop}

theorem refl (m : TaskManager) : Logs dir m e m ex := ⟨[], rfl, by simp, fun _ _ => .rfl⟩

theorem of_same (hl : m'.log = m.log) (ht : m'.tms = m.tms) : Logs dir m e m' ex :=
  ⟨[], hl, by simp, fun _ _ => by rw [ht]; rfl⟩

theorem start (hw : Wellformed dir m) {ref : Ref} (hr : ref < m.next) : Logs dir m e (m.start ref) ex := by
  have hstarted : ((m.start ref).tjs[(m.heap ref).mt.id]?).isSome := by
    rw [Wellformed.start_tjs, ExtMap.getElem?_insert, if_pos rfl]
    rfl
  refine ⟨(((Wellformed.startedJob (m.heap ref)).transactions.map (·.mt)).map Act.askReserve).reverse ++
    [.started (m.heap ref).mt.id], ?_, fun a ha => ?_, fun key _ => ?_⟩
  · rw [Wellformed.start_log, List.map_map, List.append_assoc]
    rfl
  · simp only [List.map_map, List.mem_append, List.mem_reverse, List.mem_map, List.mem_singleton] at ha
    rcases ha with ⟨tc, htc, rfl⟩ | rfl
    · refine .inl ?_
      show ((m.start ref).tjs[tc.mt.jobId]?).isSome
      rw [(Wellformed.startedJob_numbered (hw.numbered ref hr)).jobId tc htc]
      exact hstarted
    · exact hstarted
  · rw [Wellformed.start_tms, isSome_armAll, isSome_insert, entryAfter_append,
      entryAfter_asks fun _ _ => .rfl, List.map_map]
    rfl

theorem reloaded (hw : Wellformed dir m) {k : Nat} {loaded : Option (Task × Nat)} {r : Option TaskResource}
    (hs : Stored dir k loaded) (h : Reloaded m k loaded m' r) : Logs dir m e m' ex := by
  cases h with
  | failed => exact refl m
  | jobless => exact of_same rfl rfl
  | @started task rev tr ref rest hn hne hp =>
    obtain ⟨rfl, ht⟩ := hs (task, rev) rfl
    obtain ⟨hw', -, hlt⟩ := hw.readied hn ht hp
    obtain ⟨acts, hlog, hacts, hent⟩ : Logs dir _ e _ ex := start hw' hlt
    refine ⟨acts ++ [.updateTask tr.mt.id], by rw [hlog, List.append_assoc]; rfl, fun a ha => ?_,
      fun key hk => ?_⟩
    · rcases List.mem_append.mp ha with ha | ha
      · exact hacts a ha
      · rw [List.mem_singleton.mp ha]
        trivial
    · rw [entryAfter_append]
      exact hent key hk

theorem expired {mt : Meta} (loaded : Option (Task × Nat)) {key : Nat} (hkey : mt.timerKey = key) :
    Logs dir m (.update mt loaded) { m with tms := m.tms.erase key }
      (Expired { m with tms := m.tms.erase key } (.update mt loaded)) := by
  refine ⟨[], rfl, by simp, fun key' hk => isSome_erase.trans ⟨And.left, fun hx => ⟨hx, ?_⟩⟩⟩
  rintro rfl
  exact hk ⟨hkey, by simp⟩

theorem timeout (ht : Timers m) {mt : Meta} (loaded : Option (Task × Nat))
    (hs : mt.state = .transactionTimeout) (h : m.timeout mt.id mt = some m') :
    Logs dir m (.update mt loaded) m' (Expired m' (.update mt loaded)) := by
  rcases timeout_entry h with ⟨-, rfl⟩ | ⟨tm, htm, ⟨-, rfl⟩ | ⟨-, p, m₁, hp, hm₁, rfl⟩⟩
  · exact refl m'
  · exact expired loaded (by simp [Meta.timerKey, hs])
  · obtain ⟨tc, htc, hid, -⟩ := (ht _ tm htm).tc p hp
    obtain ⟨tjs, rfl⟩ := retried_eq hm₁
    refine ⟨[p.ask tc.mt], retry_log htc, fun a ha => ?_, fun key _ => ?_⟩
    · rw [List.mem_singleton.mp ha]
      cases p <;> exact .inr ⟨mt, loaded, rfl, hs, hid.symm⟩
    · rw [retry_tms]
      refine isSome_insert.trans ?_
      rw [← hid]
      cases p <;> rfl

theorem decide (turn : Act) (m₁ : TaskManager) (hw : Wellformed dir m₁) {mt : Meta}
    {loaded : Option (Task × Nat)}
    (hid : mt.id ∈ dir.txs mt.jobId) {tj t : JobResource} {f : Meta → Meta} {st : TccState}
    (hj : m₁.tjs[mt.jobId]? = some tj) (ht : t.resource = tj.resource)
    (hf : ∀ mt, (f mt).id = mt.id ∧ (f mt).jobId = mt.jobId) (hst : ∀ mt, (f mt).state = st)
    (hturn : Tells dir (m₁.decideAll mt.jobId t f) (.update mt loaded) turn)
    (hl : m₁.log = turn :: .received mt :: m.log)
    (hent : ∀ key : Nat, (m₁.tms[key]?).isSome ↔ turn.Stores dir key ((m.tms[key]?).isSome ∧ mt.id ≠ key)) :
    Logs dir m (.update mt loaded) (m₁.decideAll mt.jobId t f) ex := by
  have ha := asks_decideAll hw hj ht hf hst
  have hids : (decidedJob (m₁.heap t.resource) f).transactions.map (·.mt.id) = dir.txs mt.jobId := by
    simpa [List.map_map, Function.comp_def] using ha.ids
  have hlog := (decideAll_log m₁ mt.jobId t f).trans (by rw [hl])
  refine ⟨_, hlog.trans (List.append_assoc _ [turn, .received mt] m.log).symm, fun a h => ?_, fun key _ => ?_⟩
  · simp only [List.mem_append, List.mem_reverse, List.mem_cons, List.not_mem_nil, or_false] at h
    rcases h with h | rfl | rfl
    · obtain ⟨tc, htc, rfl⟩ := List.mem_map.mp h
      refine .inl ?_
      rw [ha.job tc htc]
      simp [decideAll, note, putJob]
    · exact hturn
    · exact hid
  · have htms : (m₁.decideAll mt.jobId t f).tms =
        armAll (.finish t.resource) (decidedJob (m₁.heap t.resource) f).transactions m₁.tms := rfl
    rw [htms, isSome_armAll, hids, entryAfter_append, entryAfter_asks fun _ _ => .rfl, ha.ids, hent key]
    rfl

theorem received {mt : Meta} {loaded : Option (Task × Nat)} (hid : mt.id ∈ dir.txs mt.jobId)
    (hl : m'.log = [.received mt] ++ m.log) (ht : m'.tms = m.tms.erase mt.id) :
    Logs dir m (.update mt loaded) m' ex := by
  refine ⟨_, hl, fun a ha => ?_, fun key _ => ?_⟩
  · rw [List.mem_singleton.mp ha]
    exact hid
  · rw [ht]
    exact isSome_erase

theorem stop (hw : Wellformed dir m) (ht : Timers m) {mt : Meta} (loaded : Option (Task × Nat))
    (hs : mt.state = .jobTimeout) {T : Nat} (hk : mt.jobId ∈ dir.jobs T) {m₁ : TaskManager} {tj : JobResource}
    (hm : m.timeout mt.jobId mt = some m₁) (hj : m₁.tjs[mt.jobId]? = some tj)
    (he : m₁.stop mt.jobId tj = some m') :
    Logs dir m (.update mt loaded) m' (Expired m' (.update mt loaded)) := by
  have hjob := timeout_job hw ht hk hm
  have hids : (m₁.heap tj.resource).transactions.map (·.mt.id) = dir.txs mt.jobId :=
    (hw.of_frame (.timeout hm)).ids hj
  have hkeep : (m'.tjs[mt.jobId]?).isSome := by
    rw [started_of_frame (Frame.stop hj he), hj]
    rfl
  obtain ⟨tr, m₂, -, hm₂, rfl⟩ := stop_cases he
  have h₂ : m₂.tms = m₁.tms ∧ m₂.log = m₁.log := by
    rw [hm₂]
    split <;> exact ⟨rfl, rfl⟩
  have hlog₁ : m₁.log = m.log := by rcases hjob with rfl | rfl <;> rfl
  have hent : ∀ key : Nat, ((closeAll (m₁.heap tj.resource).transactions m₂.tms)[key]?).isSome ↔
      (m₁.tms[key]?).isSome ∧ key ∉ dir.txs mt.jobId := by
    intro key
    rw [isSome_closeAll, hids, h₂.1]
  refine ⟨[.ended tr.mt.id, .updateTask tr.mt.id, .stopped mt.jobId],
    congrArg ([Act.ended tr.mt.id, .updateTask tr.mt.id, .stopped mt.jobId] ++ ·) (h₂.2.trans hlog₁),
    fun a ha => ?_, fun key hx => ?_⟩
  · simp only [List.mem_cons, List.not_mem_nil, or_false] at ha
    rcases ha with rfl | rfl | rfl
    · trivial
    · trivial
    · exact hkeep
  · refine (hent key).trans (and_congr_left fun _ => ?_)
    rcases hjob with rfl | rfl
    · exact .rfl
    · refine isSome_erase.trans ⟨And.left, fun hin => ⟨hin, ?_⟩⟩
      rintro rfl
      refine hx ⟨by simp [Meta.timerKey, hs], ?_⟩
      rw [← Option.not_isSome_iff_eq_none]
      exact fun hsome => absurd ((hent mt.jobId).mp hsome).1 (by simp)

theorem handled (hw : Wellformed dir m) (ht : Timers m) {mt : Meta} (loaded : Option (Task × Nat))
    (hjob : mt.state = .jobTimeout → ∃ T, mt.jobId ∈ dir.jobs T) (h : Handled m mt m') :
    Logs dir m (.update mt loaded) m' (Expired m' (.update mt loaded)) := by
  have hreport : ∀ {tj t}, m.tjs[mt.jobId]? = some tj → tj.joining[mt.id]? = some t →
      mt.id ∈ dir.txs mt.jobId := fun hj htj => ((hw.job _ _ hj).mem _).mp (by rw [htj]; rfl)
  cases h with
  | duplicate hj htj => exact received (hreport hj htj) rfl rfl
  | confirm hj htj => exact received (hreport hj htj) rfl rfl
  | finish hj htj => exact received (hreport hj htj) rfl rfl
  | @confirmLast tj t hj htj hs hf hl =>
    have hc := Frame.counted { t with confirmed := t.confirmed + 1 } hj htj rfl
    exact decide (.confirmed mt.jobId)
      ((m.counted mt tj t { t with confirmed := t.confirmed + 1 }).note [.confirmed mt.jobId])
      (hw.of_frame (hc.trans (.note _ _ (by simp)))) (hreport hj htj)
      (show _ = some (tj.count mt.id { t with confirmed := t.confirmed + 1 }) by simp [note, counted, putJob])
      rfl (fun _ => ⟨rfl, rfl⟩) (fun _ => rfl) trivial rfl fun key => isSome_erase
  | @finishLast tj t _ hj htj hs hf hl hm =>
    have hc := Frame.counted { t with finished := t.finished + 1 } hj htj rfl
    have hj' : (m.counted mt tj t { t with finished := t.finished + 1 }).tjs[mt.jobId]? =
        some (tj.count mt.id { t with finished := t.finished + 1 }) := by simp [counted, putJob]
    have htms := finished_tms hm
    rw [((hw.of_frame hc).job _ _ hj').id] at htms
    have hent : ∀ key : Nat,
        (m'.tms[key]?).isSome ↔ ((m.tms[key]?).isSome ∧ mt.id ≠ key) ∧ mt.jobId ≠ key := by
      intro key
      rw [htms, isSome_erase]
      exact and_congr_left fun _ => isSome_erase
    have hid := hreport hj htj
    obtain ⟨-, acts, hlog, hacts⟩ := finished_log hm
    refine ⟨acts ++ [.finished mt.jobId, .received mt], by rw [hlog, List.append_assoc]; rfl, fun a ha => ?_,
      fun key _ => ?_⟩
    · rcases hacts with ⟨T, rfl⟩ | ⟨T, rfl⟩ <;>
        simp only [List.mem_append, List.mem_cons, List.not_mem_nil, or_false] at ha
      · rcases ha with rfl | rfl | rfl <;> trivial
      · rcases ha with (rfl | rfl) | rfl | rfl <;> trivial
    · rw [hent key]
      rcases hacts with ⟨T, rfl⟩ | ⟨T, rfl⟩ <;> rfl
  | @cancel tj _ hj hs hm =>
    have hwr := hw.of_frame (.receive m mt)
    obtain ⟨tj', tr, hc, htr, rfl⟩ := canceled_cases hm
    have hr : tj'.resource = tj.resource := congrArg Prod.fst (JobResource.cancel_fixed hc)
    obtain ⟨t, htj, -⟩ := Option.map_eq_some_iff.mp hc
    have hids : ((m.receive mt).heap tj'.resource).transactions.map (·.mt.id) = dir.txs mt.jobId := by
      rw [hr]
      exact hwr.ids hj
    refine decide (.canceled mt.jobId)
      (((m.receive mt).abandon ((m.receive mt).heap tj'.resource) tr).note [.canceled mt.jobId])
      (hwr.of_frame (.abandon htr mt.jobId)) (hreport hj htj) hj hr
      (fun _ => ⟨rfl, rfl⟩) (fun _ => rfl) (by simp [Tells, decideAll, note, putJob]) rfl fun key => ?_
    refine isSome_closeAll.trans ?_
    rw [hids]
    exact and_congr_left fun _ => isSome_erase
  | timeout hs hm => exact timeout ht loaded hs hm
  | jobTimeout hs hm hj =>
    obtain ⟨T, hk⟩ := hjob hs
    rcases timeout_job hw ht hk hm with rfl | rfl
    · exact refl _
    · exact expired loaded (by simp [Meta.timerKey, hs])
  | stop hs hm hj he =>
    obtain ⟨T, hk⟩ := hjob hs
    exact stop hw ht loaded hs hk hm hj he
  | ignored => exact refl m

theorem waited (hs : Sound dir m) {e : Event} (he : e.Numbered dir)
    (hjob : ∀ mt loaded, e = .update mt loaded → mt.state = .jobTimeout → ∃ T, mt.jobId ∈ dir.jobs T)
    (h : Waited m e m') : Logs dir m e m' (Expired m' e) := by
  have hw := hs.wellformed
  cases h with
  | idle => exact refl m
  | recovered _ hr => exact reloaded hw he hr
  | @task task tr ref =>
    refine ⟨[.updateTask tr.mt.id], rfl, fun a ha => ?_, fun _ _ => .rfl⟩
    rw [List.mem_singleton.mp ha]
    trivial
  | job hi => exact start (hw.of_frame (.dequeue m _)) (hw.queued _ (List.mem_of_getElem? hi))
  | clear =>
    unfold clearResource
    split <;> exact of_same rfl rfl
  | unloaded _ hr => exact reloaded hw he hr
  | @handled mt loaded m₁ tr _ hc hf hne hh =>
    have hs₁ := hs.find he hf
    have hkeep := started_of_frame (Frame.handled hh)
    obtain ⟨acts₂, hlog₂, hacts₂, hent₂⟩ := handled hs₁.wellformed hs₁.timers loaded (hjob mt loaded rfl) hh
    obtain ⟨acts₁, hlog₁, hacts₁, hent₁⟩ : Logs dir m (.update mt loaded) m₁ fun _ => False := by
      rcases find_cases hf with ⟨rfl, -⟩ | ⟨-, hr⟩
      · exact refl m₁
      · exact reloaded hw he hr
    refine ⟨acts₂ ++ acts₁, by rw [hlog₂, hlog₁, List.append_assoc], fun a ha => ?_, fun key hx => ?_⟩
    · rcases List.mem_append.mp ha with ha | ha
      · exact hacts₂ a ha
      · exact (hacts₁ a ha).mono fun k hk => by rwa [hkeep k]
    · rw [hent₂ key hx, entryAfter_append, ← propext (hent₁ key id)]

end Logs

end TaskManager

end Tarantula
