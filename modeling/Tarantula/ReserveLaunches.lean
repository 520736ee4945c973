import Tarantula.Settings
import Tarantula.TimerSteps

/-! The reserve requests that an iteration launches, told by transaction objects. A start launches
one for each transaction of its job object and leaves a record under the id of each; a timeout
launches one for the object of the record that it finds. Nothing is assumed of the ids. -/

namespace Tarantula

namespace Act

def reserveId : Act → Option Nat
  | .askReserve tc => some tc.id
  | _ => none

def startsJob : Act → Option Nat
  | .started job => some job
  | _ => none

def decidesJob : Act → Option Nat
  | .confirmed job => some job
  | .canceled job => some job
  | _ => none

end Act

theorem Job.ids_of_fixed {a b : Job} (h : a.fixed = b.fixed) : a.ids = b.ids := by
  have hpairs := congrArg (fun x => x.2.2.map Prod.fst) h
  simpa [Job.fixed, Job.ids, Function.comp_def] using hpairs

/-- The transaction object whose reserve request the record under `key` resends, and how often it
may still do so. -/
def reservation (tms : IdMap Timeout) (key : Nat) : Option ((Ref × Nat) × Nat) :=
  (tms[key]?).bind fun tm =>
    match tm.p with
    | some (.reserve ref i) => some ((ref, i), tm.r)
    | _ => none

/-- Every reserve record of `tms'` is one of `tms`, with no more retries. -/
def Fades (tms tms' : IdMap Timeout) : Prop :=
  ∀ key x r', reservation tms' key = some (x, r') → ∃ r, reservation tms key = some (x, r) ∧ r' ≤ r

section Records

variable {tms tms' tms'' : IdMap Timeout} {tcs : List Transaction} {c : Nat → Retrying}

theorem reservation_congr {key : Nat} (h : tms'[key]? = tms[key]?) :
    reservation tms' key = reservation tms key := by
  rw [reservation, h, reservation]

theorem reservation_none {key : Nat} (h : tms[key]? = none) : reservation tms key = none := by
  rw [reservation, h]
  rfl

theorem reservation_eq_some {key : Nat} {ref : Ref} {i r : Nat} :
    reservation tms key = some ((ref, i), r) ↔
      ∃ tm, tms[key]? = some tm ∧ tm.p = some (.reserve ref i) ∧ tm.r = r := by
  rw [reservation, Option.bind_eq_some_iff]
  refine exists_congr fun tm => and_congr_right fun _ => ?_
  split
  · next ref' i' hp => simp [hp, and_assoc]
  · next hp =>
    constructor
    · intro h
      cases h
    · rintro ⟨h, -⟩
      exact absurd h (hp ref i)

theorem Fades.refl (tms : IdMap Timeout) : Fades tms tms := fun _ _ r' h => ⟨r', h, Nat.le_refl r'⟩

theorem Fades.trans (h : Fades tms tms') (h' : Fades tms' tms'') : Fades tms tms'' := by
  intro key x r'' hr''
  obtain ⟨r', hr', hle'⟩ := h' key x r'' hr''
  obtain ⟨r, hr, hle⟩ := h key x r' hr'
  exact ⟨r, hr, Nat.le_trans hle' hle⟩

theorem Fades.of_kept (h : ∀ key, reservation tms' key = none ∨ reservation tms' key = reservation tms key) :
    Fades tms tms' := by
  intro key x r' hr'
  rcases h key with hnone | hsame
  · rw [hnone] at hr'
    cases hr'
  · exact ⟨r', hsame ▸ hr', Nat.le_refl r'⟩

theorem Fades.erase (tms : IdMap Timeout) (k : Nat) : Fades tms (tms.erase k) := by
  refine .of_kept fun key => ?_
  have he := ExtMap.getElem?_erase tms k key
  split at he
  · exact .inl (reservation_none he)
  · exact .inr (reservation_congr he)

theorem Fades.closeAll (tcs : List Transaction) (tms : IdMap Timeout) : Fades tms (closeAll tcs tms) := by
  refine .of_kept fun key => ?_
  have he := ExtMap.getElem?_eraseEach (·.mt.id) tcs tms key
  split at he
  · exact .inl (reservation_none he)
  · exact .inr (reservation_congr he)

theorem Fades.tick {k : Nat} {tm : Timeout} (h : tms[k]? = some tm) :
    Fades tms (tms.insert k { tm with r := tm.r - 1 }) := by
  intro key x r' hr'
  obtain ⟨ref, i⟩ := x
  obtain ⟨tm', htm', hp, rfl⟩ := reservation_eq_some.mp hr'
  rw [ExtMap.getElem?_insert] at htm'
  split at htm'
  · next hk =>
    cases htm'
    exact ⟨tm.r, reservation_eq_some.mpr ⟨tm, hk ▸ h, hp, rfl⟩, Nat.sub_le _ _⟩
  · exact ⟨tm'.r, reservation_eq_some.mpr ⟨tm', htm', hp, rfl⟩, Nat.le_refl _⟩

theorem reservation_armFinish (ref : Ref) (tcs : List Transaction) (tms : IdMap Timeout) (key : Nat) :
    reservation (armAll (.finish ref) tcs tms) key =
      if key ∈ tcs.map (·.mt.id) then none else reservation tms key := by
  rcases armAll_cases (.finish ref) tcs tms key with ⟨i, tc, hi, hid, he⟩ | ⟨hnot, he⟩
  · have hmem : key ∈ tcs.map (·.mt.id) := hid ▸ List.mem_map_of_mem (List.mem_of_getElem? hi)
    rw [if_pos hmem, reservation, he]
    rfl
  · rw [if_neg hnot, reservation_congr he]

theorem Fades.armFinish (ref : Ref) (tcs : List Transaction) (tms : IdMap Timeout) :
    Fades tms (armAll (.finish ref) tcs tms) := by
  refine .of_kept fun key => ?_
  rw [reservation_armFinish]
  split
  · exact .inl rfl
  · exact .inr rfl

end Records

namespace TaskManager

variable {m m' : TaskManager} {mt : Meta}

/-- The key of the timer that `mt` comes from. -/
def firedKey (mt : Meta) : Option Nat :=
  if mt.state = .transactionTimeout ∨ mt.state = .jobTimeout then some mt.timerKey else none

/-- The transaction object whose reserve request is resent when the timer event `mt` is handled. -/
def fires (m : TaskManager) (mt : Meta) : Option (Ref × Nat) :=
  (firedKey mt).bind fun key => (m.tms[key]?).bind fun tm =>
    if 0 < tm.d ∧ 0 < tm.r then
      match tm.p with
      | some (.reserve ref i) => some (ref, i)
      | _ => none
    else none

/-- The same for an iteration, which handles the event after it has found the task. -/
def resent (m : TaskManager) : Event → Option (Ref × Nat)
  | .update mt loaded =>
    (m.find mt loaded).bind fun (m, tr) => tr.bind fun tr =>
      if tr.mt.state = .finished then none else m.fires mt
  | _ => none

theorem fires_eq_some {ref : Ref} {i : Nat} : m.fires mt = some (ref, i) ↔
    ∃ key tm, firedKey mt = some key ∧ m.tms[key]? = some tm ∧ (0 < tm.d ∧ 0 < tm.r) ∧
      tm.p = some (.reserve ref i) := by
  simp only [fires, Option.bind_eq_some_iff]
  constructor
  · rintro ⟨key, hkey, tm, htm, h⟩
    split at h
    · next hz =>
      split at h
      · next ref' i' hp =>
        cases h
        exact ⟨key, tm, hkey, htm, hz, hp⟩
      · cases h
    · cases h
  · rintro ⟨key, tm, hkey, htm, hz, hp⟩
    refine ⟨key, hkey, tm, htm, ?_⟩
    rw [if_pos hz, hp]

theorem timeout_tick {key : Nat} {tm : Timeout} (h : m.timeout key mt = some m') (htm : m.tms[key]? = some tm)
    (hz : 0 < tm.d ∧ 0 < tm.r) : m'.tms = m.tms.insert key { tm with r := tm.r - 1 } := by
  obtain ⟨p, tjs, -, rfl⟩ := timeout_resend h htm hz
  rw [retry_tms]

theorem timeout_fades {key : Nat} (h : m.timeout key mt = some m') : Fades m.tms m'.tms := by
  cases timeout_cases h with
  | absent => exact .refl _
  | last => exact .erase _ _
  | @resend tm p m₁ htm hp hr =>
    obtain ⟨tjs, rfl⟩ := retried_eq hr
    rw [retry_tms]
    exact .tick htm

theorem stop_tms {key : Nat} {t : JobResource} (h : m.stop key t = some m') :
    m'.tms = closeAll (m.heap t.resource).transactions m.tms := by
  obtain ⟨tr, m₁, -, hm₁, rfl⟩ := stop_cases h
  have htms : m₁.tms = m.tms := by
    rw [hm₁]
    split <;> rfl
  rw [← htms]
  rfl

theorem decideAll_tms (m : TaskManager) (key : Nat) (t : JobResource) (f : Meta → Meta) :
    (m.decideAll key t f).tms =
      armAll (.finish t.resource) (decidedJob (m.heap t.resource) f).transactions m.tms := rfl

theorem decidedJob_ids (job : Job) {f : Meta → Meta} (hf : ∀ mt, (f mt).id = mt.id) :
    (decidedJob job f).ids = job.ids := by
  simp [decidedJob, Job.mapMeta, Job.ids, hf]

theorem canceled_tms {key : Nat} {c : Meta} {t : JobResource} (h : m.canceled key c t = some m') :
    ∃ job : Job, job.ids = (m.heap t.resource).ids ∧
      m'.tms = armAll (.finish t.resource) job.transactions
        (closeAll (m.heap t.resource).transactions m.tms) := by
  obtain ⟨t', tr, hc, -, rfl⟩ := canceled_cases h
  have hr : t'.resource = t.resource := congrArg Prod.fst (JobResource.cancel_fixed hc)
  rw [← hr]
  exact ⟨_, decidedJob_ids _ (by exact fun _ => rfl), decideAll_tms ..⟩

theorem handled_timer (h : Handled m mt m') {key : Nat} (hkey : firedKey mt = some key) :
    ∃ m₁, m.timeout key mt = some m₁ ∧ (m' = m₁ ∨ ∃ k t, m₁.stop k t = some m') := by
  cases h with
  | duplicate _ _ hd => rcases hd with ⟨hs, -⟩ | ⟨hs, -⟩ <;> simp [firedKey, hs] at hkey
  | confirm _ _ hs => simp [firedKey, hs] at hkey
  | confirmLast _ _ hs => simp [firedKey, hs] at hkey
  | finish _ _ hs => simp [firedKey, hs] at hkey
  | finishLast _ _ hs => simp [firedKey, hs] at hkey
  | cancel _ hs => simp [firedKey, hs] at hkey
  | timeout hs hm =>
    simp [firedKey, Meta.timerKey, hs] at hkey
    exact ⟨m', hkey ▸ hm, .inl rfl⟩
  | jobTimeout hs hm =>
    simp [firedKey, Meta.timerKey, hs] at hkey
    exact ⟨m', hkey ▸ hm, .inl rfl⟩
  | stop hs hm _ he =>
    simp [firedKey, Meta.timerKey, hs] at hkey
    exact ⟨_, hkey ▸ hm, .inr ⟨_, _, he⟩⟩
  | ignored hs =>
    rw [firedKey, if_neg] at hkey
    · cases hkey
    · rintro (hx | hx)
      · exact hs.2.2.2.1 hx
      · exact hs.2.2.2.2 hx

/-- No reserve record is written by the switch of `Wait`. -/
theorem handled_fades (h : Handled m mt m') : Fades m.tms m'.tms := by
  cases h with
  | duplicate => exact .erase _ _
  | confirm => exact .erase _ _
  | confirmLast => exact (Fades.erase _ _).trans (.armFinish _ _ _)
  | finish => exact .erase _ _
  | finishLast _ _ _ _ _ hm =>
    rw [finished_tms hm]
    exact (Fades.erase _ _).trans (.erase _ _)
  | cancel _ _ hm =>
    obtain ⟨job, -, htms⟩ := canceled_tms hm
    rw [htms]
    exact (Fades.erase _ _).trans ((Fades.closeAll _ _).trans (.armFinish _ _ _))
  | timeout _ hm => exact timeout_fades hm
  | jobTimeout _ hm => exact timeout_fades hm
  | stop _ hm _ he =>
    rw [stop_tms he]
    exact (timeout_fades hm).trans (.closeAll _ _)
  | ignored => exact .refl _

/-- A reserve record stands under the id of the transaction object that it is about. -/
def Keyed (m : TaskManager) : Prop :=
  ∀ key ref i r, reservation m.tms key = some ((ref, i), r) → ref < m.next ∧ (m.heap ref).ids[i]? = some key

def idOf (m : TaskManager) (x : Ref × Nat) : Option Nat := (m.heap x.1).ids[x.2]?

theorem timeout_acts (hk : Keyed m) {key : Nat} (hkey : firedKey mt = some key)
    (h : m.timeout key mt = some m') :
    ∃ acts, m'.log = acts ++ m.log ∧ acts.filterMap Act.startsJob = [] ∧ acts.filterMap Act.decidesJob = [] ∧
      (acts.filterMap Act.reserveId).map some = (m.fires mt).toList.map m.idOf := by
  have hfires : m.fires mt = (m.tms[key]?).bind fun tm => if 0 < tm.d ∧ 0 < tm.r then
      (match tm.p with | some (.reserve ref i) => some (ref, i) | _ => none) else none := by
    rw [fires, hkey]
    rfl
  rcases timeout_entry h with ⟨hnone, rfl⟩ | ⟨tm, htm, ⟨hz, rfl⟩ | ⟨hz, p, m₁, hp, hr, rfl⟩⟩
  · rw [hfires, hnone]
    exact ⟨[], rfl, rfl, rfl, rfl⟩
  · rw [hfires, htm, Option.bind_some, if_neg hz]
    exact ⟨[], rfl, rfl, rfl, rfl⟩
  · rw [hfires, htm, Option.bind_some, if_pos hz, hp]
    obtain ⟨tjs, rfl⟩ := retried_eq hr
    cases p with
    | reserve ref i =>
      obtain ⟨-, hid⟩ := hk key ref i tm.r (reservation_eq_some.mpr ⟨tm, htm, hp, rfl⟩)
      obtain ⟨tc, htc, hid'⟩ := by simpa [Job.ids] using hid
      refine ⟨[.askReserve tc.mt], by simp [retry, htc, note], rfl, rfl, ?_⟩
      simp [Act.reserveId, idOf, hid, hid']
    | finish ref i =>
      refine ⟨_, rfl, ?_, ?_, ?_⟩ <;> simp [Act.startsJob, Act.decidesJob, Act.reserveId]

theorem armFinish_clears (hk : Keyed m) {tms : IdMap Timeout} (hf : Fades m.tms tms) {ref : Ref} {job : Job}
    (hids : job.ids = (m.heap ref).ids) (key i r : Nat) :
    reservation (armAll (.finish ref) job.transactions tms) key ≠ some ((ref, i), r) := by
  intro hr
  rw [reservation_armFinish] at hr
  split at hr
  · cases hr
  · next hnot =>
    obtain ⟨r₀, hr₀, -⟩ := hf key (ref, i) r hr
    obtain ⟨-, hid⟩ := hk key ref i r₀ hr₀
    rw [← hids] at hid
    exact hnot (List.mem_of_getElem? hid)

/-- What is logged by the switch of `Wait`, `fired` being the transaction object that a timer event
resends the request of: no start, this request, and a decision only where it takes the reserve
records of its job object away. -/
structure SwitchLog (m m' : TaskManager) (fired : Option (Ref × Nat)) (acts : List Act) : Prop where
  log : m'.log = acts ++ m.log
  starts : acts.filterMap Act.startsJob = []
  reserves : (acts.filterMap Act.reserveId).map some = fired.toList.map m.idOf
  decides : ∀ k ∈ acts.filterMap Act.decidesJob, ∃ tj, m.tjs[k]? = some tj ∧
    ∀ key i r, reservation m'.tms key ≠ some ((tj.resource, i), r)

theorem decideAll_logs (hk : Keyed m) {m₁ : TaskManager} {k : Nat} {tj t : JobResource} {f : Meta → Meta}
    {turn : Act} (hj : m.tjs[k]? = some tj) (hr : t.resource = tj.resource) (hf : ∀ mt, (f mt).id = mt.id)
    (hheap : (m₁.heap t.resource).ids = (m.heap t.resource).ids) (htms : Fades m.tms m₁.tms)
    (hlog : m₁.log = turn :: .received mt :: m.log) (hturn : turn = .confirmed k ∨ turn = .canceled k) :
    ∃ acts, SwitchLog m (m₁.decideAll k t f) none acts := by
  have hacts : ∀ a ∈ turn :: [.received mt], a.startsJob = none ∧ a.reserveId = none ∧
      ∀ k' ∈ a.decidesJob, k' = k := by
    rcases hturn with rfl | rfl <;> simp [Act.startsJob, Act.reserveId, Act.decidesJob]
  obtain ⟨asks, hasks⟩ : ∃ asks : List Meta,
      (m₁.decideAll k t f).log = (asks.map Act.askFinish).reverse ++ m₁.log := ⟨_, decideAll_log ..⟩
  refine ⟨(asks.map Act.askFinish).reverse ++ (turn :: [.received mt]), ?_, ?_, ?_, ?_⟩
  · rw [hasks, hlog, List.append_assoc]
    rfl
  · rw [List.filterMap_append, List.append_eq_nil_iff]
    exact ⟨by simp [Act.startsJob], List.filterMap_eq_nil_iff.mpr fun a ha => (hacts a ha).1⟩
  · rw [List.filterMap_append, List.filterMap_eq_nil_iff.mpr fun a ha => (hacts a ha).2.1]
    simp [Act.reserveId]
  · intro k' hk'
    have hkk : k' = k := by
      obtain ⟨a, ha, hak⟩ := List.mem_filterMap.mp hk'
      rcases List.mem_append.mp ha with ha | ha
      · simp only [List.mem_reverse, List.mem_map] at ha
        obtain ⟨tc, -, rfl⟩ := ha
        cases hak
      · exact (hacts a ha).2.2 k' hak
    subst hkk
    refine ⟨tj, hj, fun key i r => ?_⟩
    rw [← hr, decideAll_tms]
    exact armFinish_clears hk htms ((decidedJob_ids _ hf).trans hheap) key i r

theorem timer_logs (hk : Keyed m) (h : Handled m mt m') {key : Nat} (hkey : firedKey mt = some key) :
    ∃ acts, SwitchLog m m' (m.fires mt) acts := by
  obtain ⟨m₁, hm, hrest⟩ := handled_timer h hkey
  obtain ⟨acts, hlog, hstart, hdecide, hres⟩ := timeout_acts hk hkey hm
  rcases hrest with rfl | ⟨k, t, he⟩
  · exact ⟨acts, hlog, hstart, hres, by simp [hdecide]⟩
  · obtain ⟨-, T, hlog'⟩ := stop_log he
    refine ⟨[.ended T, .updateTask T, .stopped k] ++ acts, by rw [hlog', hlog]; rfl, ?_, ?_, ?_⟩
    · rw [List.filterMap_append, hstart]
      rfl
    · rw [List.filterMap_append, ← hres]
      rfl
    · rw [List.filterMap_append, hdecide]
      simp [Act.decidesJob]

theorem report_logs (hk : Keyed m) (h : Handled m mt m') (hkey : firedKey mt = none) :
    ∃ acts, SwitchLog m m' none acts := by
  have hreport : ∀ m', m'.log = .received mt :: m.log → ∃ acts, SwitchLog m m' none acts := fun m' hlog =>
    ⟨[.received mt], hlog, rfl, rfl, by simp [Act.decidesJob]⟩
  cases h with
  | duplicate => exact hreport _ rfl
  | confirm => exact hreport _ rfl
  | @confirmLast tj t hj ht =>
    refine decideAll_logs hk hj rfl (by exact fun _ => rfl) ?_ (.erase _ _) rfl (.inl rfl)
    have hc := Frame.counted { t with confirmed := t.confirmed + 1 } hj ht rfl
    exact Job.ids_of_fixed (hc.heap _)
  | finish => exact hreport _ rfl
  | finishLast _ _ _ _ _ hm =>
    obtain ⟨-, acts, hlog, hacts⟩ := finished_log hm
    have hlog' : m'.log = acts ++ [.finished mt.jobId, .received mt] ++ m.log := by
      rw [hlog, List.append_assoc]
      rfl
    rcases hacts with ⟨T, rfl⟩ | ⟨T, rfl⟩ <;> exact ⟨_, hlog', rfl, rfl, by simp [Act.decidesJob]⟩
  | cancel hj _ hm =>
    obtain ⟨t', tr, hc, -, rfl⟩ := canceled_cases hm
    have hr : t'.resource = _ := congrArg Prod.fst (JobResource.cancel_fixed hc)
    exact decideAll_logs hk hj hr (by exact fun _ => rfl) rfl ((Fades.erase _ _).trans (.closeAll _ _)) rfl
      (.inr rfl)
  | timeout hs => simp [firedKey, hs] at hkey
  | jobTimeout hs => simp [firedKey, hs] at hkey
  | stop hs => simp [firedKey, hs] at hkey
  | ignored => exact ⟨[], rfl, rfl, rfl, by simp⟩

theorem handled_logs (hk : Keyed m) (h : Handled m mt m') : ∃ acts, SwitchLog m m' (m.fires mt) acts := by
  cases hkey : firedKey mt with
  | none =>
    have hquiet : m.fires mt = none := by
      rw [fires, hkey]
      rfl
    rw [hquiet]
    exact report_logs hk h hkey
  | some key => exact timer_logs hk h hkey

end TaskManager

end Tarantula
