import Mathlib.Data.List.Count
import Tarantula.Lists
import Tarantula.ReserveLaunches
import Tarantula.Runs
import Tarantula.StartedOnce

/-! The retry budget of a start. Each transaction object of the job is asked to reserve once, and
once more for each retry that its record has; a decision on the job takes the records away. -/

namespace Tarantula.TaskManager

def objects (m : TaskManager) (ids : List Nat) : List Ref :=
  ids.filterMap fun k => (m.tjs[k]?).map (·.resource)

def started (m m' : TaskManager) : List Ref := m'.objects ((acts m m').filterMap Act.startsJob)

def settled (m m' : TaskManager) : List Ref := m'.objects ((acts m m').filterMap Act.decidesJob)

/-- The transaction objects for which an iteration launches a reserve request, in this order: those of
the job object that it starts, and the one whose request it resends. -/
def reserved (m : TaskManager) (e : Event) (m' : TaskManager) : List (Ref × Nat) :=
  ((started m m').flatMap fun ref => (List.range (m'.heap ref).transactions.length).map (ref, ·)) ++
    (m.resent e).toList

/-- The launches for a transaction object in a run, which ends where an iteration stops the process. -/
def launched (ref : Ref) (i : Nat) : TaskManager → List Event → Nat
  | _, [] => 0
  | m, e :: es =>
    match m.wait e with
    | none => 0
    | some m' => (reserved m e m').count (ref, i) + launched ref i m' es

variable {m m' : TaskManager} {e : Event}

/-- Each job object is queued or waits at one place at most, and at none once it has been started;
reserve records stand under the ids of their transaction objects. -/
structure Recorded (m : TaskManager) : Prop extends Lined m where
  running : ∀ (k : Nat) tj, m.tjs[k]? = some tj → Gone m tj.resource
  keyed : Keyed m

/-- New job objects may have come in; nothing is started and no timer is touched. -/
structure Grown (m m' : TaskManager) : Prop where
  next : m.next ≤ m'.next
  ids : ∀ r < m.next, (m'.heap r).ids = (m.heap r).ids
  tms : m'.tms = m.tms
  tjs : ∀ (k : Nat) tj, m'.tjs[k]? = some tj → m.tjs[k]? = some tj
  lined : Lined m → Lined m'
  gone : ∀ {r}, Gone m r → Gone m' r
  log : ∃ acts, m'.log = acts ++ m.log ∧ ∀ a ∈ acts, ∃ k, a = .updateTask k

/-- What an iteration does before the switch, if it comes to it. A job object that is started was
queued or is new, and is not queued any more. -/
inductive Entered (m : TaskManager) : TaskManager → Prop
  | grown {m₁} (h : Grown m m₁) : Entered m m₁
  | started {m₀ ref} (h : Grown m m₀) (hg : Lined m → Gone m₀ ref) (ho : ref ∈ m.jobs ∨ m.next ≤ ref) :
      Entered m (m₀.start ref)

namespace Grown

theorem refl (m : TaskManager) : Grown m m :=
  ⟨Nat.le_refl _, fun _ _ => rfl, rfl, fun _ _ h => h, fun h => h, fun h => h, [], rfl, by simp⟩

theorem introduce {task : Task} {tr : TaskResource} (hn : NewTask m task tr) (hf : tr.Fresh) (k : Nat) :
    Grown m (m.introduce k task tr) := by
  refine ⟨Nat.le_add_right _ _, fun r hr => ?_, rfl, fun _ _ h => h, fun hl => hl.introduce hn hf k,
    fun hg => hg.introduce hn k, [], rfl, by simp⟩
  simp [TaskManager.introduce, putTask, alloc, hr]

theorem ready (h : Grown m m') (tr : TaskResource) (ref : Ref) :
    Grown m ((m'.readyJob tr ref).note [.updateTask tr.mt.id]) := by
  have hs : Shrunk m' ((m'.readyJob tr ref).note [.updateTask tr.mt.id]) := .of_eq rfl rfl rfl
  refine ⟨h.next, fun r hr => ?_, h.tms, h.tjs, fun hl => hs.lined (h.lined hl),
    fun hg => hs.gone (h.gone hg), ?_⟩
  · exact (Job.ids_of_fixed ((Frame.ready m' tr ref).heap r)).trans (h.ids r hr)
  · obtain ⟨acts, hl, ha⟩ := h.log
    refine ⟨.updateTask tr.mt.id :: acts, congrArg (List.cons _) hl, fun a hmem => ?_⟩
    rcases List.mem_cons.mp hmem with rfl | hmem
    · exact ⟨_, rfl⟩
    · exact ha a hmem

theorem enqueue (h : Grown m m') {ref : Ref} (hg : Lined m → Gone m' ref) (hnew : m.next ≤ ref) :
    Grown m { m' with jobs := m'.jobs ++ [ref] } := by
  refine ⟨h.next, h.ids, h.tms, h.tjs, fun hl => (h.lined hl).enqueue (hg hl) rfl rfl rfl,
    fun hr => ?_, h.log⟩
  exact (h.gone hr).enqueue (Nat.ne_of_lt (Nat.lt_of_lt_of_le hr.lt hnew)) rfl rfl rfl

theorem dequeue (m : TaskManager) (i : Nat) : Grown m { m with jobs := m.jobs.eraseIdx i } :=
  ⟨Nat.le_refl _, fun _ _ => rfl, rfl, fun _ _ h => h, fun hl => hl.dequeue i,
    fun hg => hg.dequeue i, [], rfl, by simp⟩

theorem clear (m : TaskManager) (key : Nat) : Grown m (m.clearResource key) := by
  unfold clearResource
  split
  · exact refl m
  · have hs : ∀ tjs, Shrunk m { m with trs := m.trs.erase key, tjs := tjs } := by
      refine fun tjs => ⟨rfl, rfl, fun k tr hk => ?_⟩
      simp only [ExtMap.getElem?_erase] at hk
      split at hk
      · cases hk
      · exact ⟨tr, hk, rfl, List.Sublist.refl _⟩
    refine ⟨Nat.le_refl _, fun _ _ => rfl, rfl, fun k tj hk => ?_, (hs _).lined, (hs _).gone,
      [], rfl, by simp⟩
    rw [ExtMap.getElem?_eraseEach] at hk
    split at hk
    · cases hk
    · exact hk

end Grown

theorem arrived {task : Task} {tr : TaskResource} {ref : Ref} (hn : NewTask m task tr)
    (hf : tr.Fresh) (k : Nat) (hp : tr.pending.head? = some ref) :
    let m₀ := ((m.introduce k task tr).readyJob tr ref).note [.updateTask tr.mt.id]
    Grown m m₀ ∧ (Lined m → Gone m₀ ref) ∧ m.next ≤ ref := by
  intro m₀
  have hs : Shrunk (m.introduce k task tr) m₀ := .of_eq rfl rfl rfl
  refine ⟨(Grown.introduce hn hf k).ready tr ref, fun hl => hs.gone (hl.gone_introduce hn hf k hp), ?_⟩
  obtain ⟨rest, hp⟩ := List.head?_eq_some_iff.mp hp
  exact (introduced_new hn (k := k) (show ref ∈ tr.pending by simp [hp])).1

theorem reload_entered {k : Nat} {loaded : Option (Task × Nat)} {r : Option TaskResource}
    (h : m.reload k loaded = some (m', r)) : Entered m m' := by
  rcases reload_enters h with rfl | ⟨task, rev, tr, -, hn, hf, -, ⟨-, rfl, -⟩ | ⟨ref, rest, hp, rfl⟩⟩
  · exact .grown (.refl m')
  · exact .grown (.introduce hn hf k)
  · obtain ⟨hgrown, hgone, hnew⟩ := arrived hn hf k (show tr.pending.head? = some ref by rw [hp]; rfl)
    exact .started hgrown hgone (.inr hnew)

theorem find_entered {mt : Meta} {loaded : Option (Task × Nat)} {r : Option TaskResource}
    (h : m.find mt loaded = some (m', r)) : Entered m m' := by
  rcases find_enters h with rfl | ⟨-, hr⟩
  · exact .grown (.refl m')
  · exact reload_entered hr

theorem wait_entered (h : m.wait e = some m') : ∃ m₁, Entered m m₁ ∧
    (m' = m₁ ∧ m.resent e = none ∨ ∃ mt, Handled m₁ mt m' ∧ m.resent e = m₁.fires mt) := by
  cases e with
  | recovery k loaded =>
    simp only [wait] at h
    split at h
    · cases h
      exact ⟨m, .grown (.refl m), .inl ⟨rfl, rfl⟩⟩
    · obtain ⟨⟨m₁, r⟩, hr, rfl⟩ := Option.map_eq_some_iff.mp h
      exact ⟨m₁, reload_entered hr, .inl ⟨rfl, rfl⟩⟩
  | task task =>
    obtain ⟨tr, ref, hn, hf, -, hp, rfl⟩ := task_enters h
    obtain ⟨hgrown, hgone, hnew⟩ := arrived hn hf task.mt.id (List.head?_eq_getElem?.trans hp)
    exact ⟨_, .grown (hgrown.enqueue hgone hnew), .inl ⟨rfl, rfl⟩⟩
  | job i =>
    cases wait_cases h with
    | idle => exact ⟨m, .grown (.refl m), .inl ⟨rfl, rfl⟩⟩
    | @job _ ref tr hi ht =>
      exact ⟨_, .started (.dequeue m i) (fun hl => hl.gone_dequeue hi) (.inl (List.mem_of_getElem? hi)),
        .inl ⟨rfl, rfl⟩⟩
  | update mt loaded =>
    simp only [wait] at h
    split at h
    · next hs =>
      cases h
      have hquiet : ∀ m₁ : TaskManager, m₁.fires mt = none := fun m₁ => by simp [fires, firedKey, hs]
      refine ⟨_, .grown (.clear m mt.id), .inl ⟨rfl, ?_⟩⟩
      simp [resent, hquiet]
    · split at h
      · cases h
      · next m₁ hf =>
        cases h
        exact ⟨m', find_entered hf, .inl ⟨rfl, by rw [resent, hf]; rfl⟩⟩
      · next m₁ tr hf =>
        split at h
        · next hfin =>
          cases h
          exact ⟨m', find_entered hf, .inl ⟨rfl, by simp [resent, hf, hfin]⟩⟩
        · next hfin =>
          exact ⟨m₁, find_entered hf, .inr ⟨mt, handle_cases h, by simp [resent, hf, hfin]⟩⟩

section Start

variable {ref : Ref}

theorem startedJob_ids (job : Job) : (Wellformed.startedJob job).ids = job.ids := by
  simp [Wellformed.startedJob, Job.mapMeta, Job.ids]

theorem start_ids (m : TaskManager) (ref r : Ref) : ((m.start ref).heap r).ids = (m.heap r).ids := by
  have hheap : (m.start ref).heap = Function.update m.heap ref (Wellformed.startedJob (m.heap ref)) := rfl
  rw [hheap]
  by_cases hr : r = ref
  · rw [hr, Function.update_self, startedJob_ids]
  · rw [Function.update_of_ne hr]

theorem reservation_start {key : Nat} {x : Ref × Nat} {r : Nat}
    (h : reservation (m.start ref).tms key = some (x, r)) :
    (x.1 = ref ∧ (m.heap ref).ids[x.2]? = some key ∧ (m.heap ref).settings[x.2]?.map (·.2) = some r) ∨
      (key ∉ (m.heap ref).ids ∧ reservation m.tms key = some (x, r)) := by
  obtain ⟨ref', i⟩ := x
  rw [Wellformed.start_tms] at h
  rcases armAll_cases (.reserve ref) (Wellformed.startedJob (m.heap ref)).transactions
    (m.tms.insert (m.heap ref).mt.id ⟨0, 0, none⟩) key with ⟨n, tc, hn, hid, he⟩ | ⟨hnot, he⟩
  · obtain ⟨tm, htm, hp, hr⟩ := reservation_eq_some.mp h
    rw [he] at htm
    cases htm
    cases hp
    refine .inl ⟨rfl, ?_, ?_⟩
    · rw [← startedJob_ids, Job.ids, List.getElem?_map, hn, Option.map_some, hid]
    · have hset : (Wellformed.startedJob (m.heap ref)).settings = (m.heap ref).settings :=
        Job.mapMeta_settings _ fun _ => ⟨rfl, rfl⟩
      rw [← hset, Job.settings, List.getElem?_map, hn, Option.map_some, Option.map_some]
      exact congrArg some hr
  · rw [reservation_congr he] at h
    refine .inr ⟨by rw [← startedJob_ids]; exact hnot, ?_⟩
    obtain ⟨tm, htm, hp, hr⟩ := reservation_eq_some.mp h
    rw [ExtMap.getElem?_insert] at htm
    split at htm
    · cases htm
      cases hp
    · exact reservation_eq_some.mpr ⟨tm, htm, hp, hr⟩

end Start

theorem Gone.handled {ref : Ref} (hg : Gone m ref) {mt : Meta} (h : Handled m mt m') : Gone m' ref := by
  rcases handled_queue h with hs | ha
  · exact hs.gone hg
  · exact ha.gone hg

namespace Recorded

theorem empty : Recorded TaskManager.empty := by
  refine ⟨⟨⟨?_, ?_⟩, ?_, ?_, ?_⟩, ?_, ?_⟩ <;> simp [TaskManager.empty, Keyed, reservation]

theorem grown (hm : Recorded m) (h : Grown m m') : Recorded m' := by
  refine ⟨h.lined hm.toLined, fun k tj hk => h.gone (hm.running k tj (h.tjs k tj hk)),
    fun key ref i r hr => ?_⟩
  rw [h.tms] at hr
  obtain ⟨hlt, hid⟩ := hm.keyed key ref i r hr
  exact ⟨Nat.lt_of_lt_of_le hlt h.next, by rw [h.ids ref hlt, hid]⟩

theorem start (hm : Recorded m) {ref : Ref} (hg : Gone m ref) : Recorded (m.start ref) := by
  have hs := Shrunk.start m ref
  refine ⟨hs.lined hm.toLined, fun k tj hk => ?_, fun key ref' i r hres => ?_⟩
  · rw [Wellformed.start_tjs, ExtMap.getElem?_insert] at hk
    split at hk
    · cases hk
      exact hs.gone hg
    · exact hs.gone (hm.running k tj hk)
  · rw [start_ids]
    rcases reservation_start hres with ⟨rfl, hid, -⟩ | ⟨-, hres⟩
    · exact ⟨hg.lt, hid⟩
    · exact hm.keyed key ref' i r hres

theorem entered (hm : Recorded m) (h : Entered m m') : Recorded m' := by
  cases h with
  | grown h => exact hm.grown h
  | started h hg => exact (hm.grown h).start (hg hm.toLined)

theorem handled (hm : Recorded m) {mt : Meta} (h : Handled m mt m') : Recorded m' := by
  have hf := Frame.handled h
  refine ⟨?_, fun k tj' hk => ?_, fun key ref i r hr => ?_⟩
  · rcases handled_queue h with hs | ha
    · exact hs.lined hm.toLined
    · exact ha.lined hm.toLined
  · have hx := hf.tjs k
    rw [hk] at hx
    obtain ⟨tj, hj, hfix⟩ := Option.map_eq_some_iff.mp hx.symm
    rw [← show tj.resource = tj'.resource from congrArg Prod.fst hfix]
    exact (hm.running k tj hj).handled h
  · obtain ⟨r₀, hr₀, -⟩ := handled_fades h key (ref, i) r hr
    rw [hf.next, Job.ids_of_fixed (hf.heap ref)]
    exact hm.keyed key ref i r₀ hr₀

theorem wait (hm : Recorded m) (h : m.wait e = some m') : Recorded m' := by
  obtain ⟨m₁, hent, ⟨rfl, -⟩ | ⟨mt, hh, -⟩⟩ := wait_entered h
  · exact hm.entered hent
  · exact (hm.entered hent).handled hh

end Recorded

theorem Gone.wait {ref : Ref} (hg : Gone m ref) (h : m.wait e = some m') : Gone m' ref := by
  obtain ⟨m₁, hent, hrest⟩ := wait_entered h
  have hg₁ : Gone m₁ ref := by
    cases hent with
    | grown hgrown => exact hgrown.gone hg
    | started hgrown => exact (Shrunk.start ..).gone (hgrown.gone hg)
  rcases hrest with ⟨rfl, -⟩ | ⟨mt, hh, -⟩
  · exact hg₁
  · exact hg₁.handled hh

/-- No record resends the request of the transaction object more than `n` times. -/
def Within (m : TaskManager) (x : Ref × Nat) (n : Nat) : Prop :=
  ∀ key r, reservation m.tms key = some (x, r) → r ≤ n

theorem Within.fades {x : Ref × Nat} {n : Nat} (h : Within m x n) (hf : Fades m.tms m'.tms) :
    Within m' x n := by
  intro key r' hr'
  obtain ⟨r, hr, hle⟩ := hf key x r' hr'
  exact Nat.le_trans hle (h key r hr)

theorem Within.grown {x : Ref × Nat} {n : Nat} (h : Within m x n) (hg : Grown m m') : Within m' x n := by
  refine h.fades ?_
  rw [hg.tms]
  exact .refl _

/-- A start gives each transaction object of its job the retries that it carries. -/
theorem start_within (hm : Recorded m) {ref : Ref} {i : Nat} {s : Nat × Nat}
    (hs : (m.heap ref).settings[i]? = some s) : Within (m.start ref) (ref, i) s.2 := by
  intro key r hr
  rcases reservation_start hr with ⟨-, -, hx⟩ | ⟨hnot, hres⟩
  · rw [hs] at hx
    cases hx
    exact Nat.le_refl _
  · obtain ⟨-, hid⟩ := hm.keyed key ref i r hres
    exact absurd (List.mem_of_getElem? hid) hnot

theorem start_within_other {ref : Ref} {x : Ref × Nat} {n : Nat} (h : Within m x n) (hne : x.1 ≠ ref) :
    Within (m.start ref) x n := by
  intro key r hr
  rcases reservation_start hr with ⟨heq, -⟩ | ⟨-, hres⟩
  · exact absurd heq hne
  · exact h key r hres

theorem handled_tick {mt : Meta} (h : Handled m mt m') {key : Nat} {tm : Timeout}
    (hkey : firedKey mt = some key) (htm : m.tms[key]? = some tm) (hz : 0 < tm.d ∧ 0 < tm.r) :
    Fades (m.tms.insert key { tm with r := tm.r - 1 }) m'.tms := by
  obtain ⟨m₁, hm, rfl | ⟨k, t, he⟩⟩ := handled_timer h hkey
  · rw [timeout_tick hm htm hz]
    exact .refl _
  · rw [stop_tms he, timeout_tick hm htm hz]
    exact .closeAll _ _

theorem handled_spends (hk : Keyed m) {mt : Meta} (h : Handled m mt m') {x : Ref × Nat} {n : Nat}
    (hw : Within m x n) : ∃ n', Within m' x n' ∧ (if m.fires mt = some x then 1 else 0) + n' ≤ n := by
  by_cases hx : m.fires mt = some x
  · obtain ⟨ref, i⟩ := x
    obtain ⟨key, tm, hkey, htm, hz, hp⟩ := fires_eq_some.mp hx
    have hres : reservation m.tms key = some ((ref, i), tm.r) := reservation_eq_some.mpr ⟨tm, htm, hp, rfl⟩
    have hle := hw key tm.r hres
    refine ⟨n - 1, fun key' r' hr' => ?_, ?_⟩
    · -- the record is the only one of its transaction object
      obtain ⟨r₀, hr₀, -⟩ := handled_fades h key' (ref, i) r' hr'
      obtain ⟨-, hid⟩ := hk key ref i tm.r hres
      obtain ⟨-, hid'⟩ := hk key' ref i r₀ hr₀
      obtain rfl := Option.some.inj (hid.symm.trans hid')
      obtain ⟨r₁, hr₁, hle₁⟩ := handled_tick h hkey htm hz key (ref, i) r' hr'
      obtain ⟨tm₁, htm₁, -, rfl⟩ := reservation_eq_some.mp hr₁
      rw [ExtMap.getElem?_insert, if_pos rfl] at htm₁
      cases htm₁
      dsimp only at hle₁
      omega
    · rw [if_pos hx]
      omega
  · refine ⟨n, hw.fades (handled_fades h), ?_⟩
    rw [if_neg hx]
    omega

/-- What the rest of an iteration does, `fired` being the transaction object whose request it
resends. -/
structure Switched (m m' : TaskManager) (fired : Option (Ref × Nat)) : Prop where
  log : ∃ acts, SwitchLog m m' fired acts
  tjs : ∀ k : Nat, (m'.tjs[k]?).map (·.resource) = (m.tjs[k]?).map (·.resource)
  ids : ∀ r, (m'.heap r).ids = (m.heap r).ids
  settings : ∀ r, (m'.heap r).settings = (m.heap r).settings
  spends : ∀ x n, Within m x n → ∃ n', Within m' x n' ∧ (if fired = some x then 1 else 0) + n' ≤ n

theorem Switched.refl (m : TaskManager) : Switched m m none :=
  ⟨⟨[], rfl, rfl, rfl, by simp⟩, fun _ => rfl, fun _ => rfl, fun _ => rfl, fun x n h => ⟨n, h, by simp⟩⟩

theorem Switched.of_handled (hk : Keyed m) {mt : Meta} (h : Handled m mt m') :
    Switched m m' (m.fires mt) := by
  have hf := Frame.handled h
  refine ⟨handled_logs hk h, fun k => ?_, fun r => Job.ids_of_fixed (hf.heap r), handled_settings h,
    fun x n hw => handled_spends hk h hw⟩
  have hx := congrArg (Option.map Prod.fst) (hf.tjs k)
  simpa [JobResource.fixed, Function.comp_def] using hx

theorem wait_switched (hm : Recorded m) (h : m.wait e = some m') :
    ∃ m₁, Entered m m₁ ∧ Switched m₁ m' (m.resent e) := by
  obtain ⟨m₁, hent, ⟨rfl, hres⟩ | ⟨mt, hh, hres⟩⟩ := wait_entered h
  · exact ⟨m', hent, hres ▸ .refl m'⟩
  · exact ⟨m₁, hent, hres ▸ .of_handled (hm.entered hent).keyed hh⟩

section Iteration

theorem mem_objects {ids : List Nat} {ref : Ref} :
    ref ∈ m.objects ids ↔ ∃ k ∈ ids, (m.tjs[k]?).map (·.resource) = some ref := by
  rw [objects, List.mem_filterMap]

theorem Grown.silent (h : Grown m m') {f : Act → Option Nat} (hf : ∀ k, f (.updateTask k) = none) :
    (acts m m').filterMap f = [] := by
  obtain ⟨a, hl, ha⟩ := h.log
  rw [acts_eq hl]
  refine List.filterMap_eq_nil_iff.mpr fun x hx => ?_
  obtain ⟨k, rfl⟩ := ha x hx
  exact hf k

variable {m₁ : TaskManager} {fired : Option (Ref × Nat)}

theorem Switched.acts {a : List Act} (hs : Switched m₁ m' fired) (hl : m₁.log = a ++ m.log) :
    ∃ b, SwitchLog m₁ m' fired b ∧ TaskManager.acts m m' = b ++ TaskManager.acts m m₁ := by
  obtain ⟨b, hb⟩ := hs.log
  refine ⟨b, hb, ?_⟩
  rw [acts_eq hl, acts_eq (a := b ++ a)]
  rw [hb.log, hl, List.append_assoc]

theorem Switched.settled {a : List Act} (hs : Switched m₁ m' fired) (hl : m₁.log = a ++ m.log)
    (ha : a.filterMap Act.decidesJob = []) {ref : Ref} (href : ref ∈ settled m m') (i : Nat) :
    Within m' (ref, i) 0 := by
  obtain ⟨b, hb, hacts⟩ := hs.acts hl
  rw [TaskManager.settled, hacts, acts_eq hl, List.filterMap_append, ha, List.append_nil, mem_objects] at href
  obtain ⟨k, hk, href⟩ := href
  obtain ⟨tj, hj, hnone⟩ := hb.decides k hk
  rw [hs.tjs k, hj] at href
  cases href
  intro key r hr
  exact absurd hr (hnone key i r)

theorem SwitchLog.reserves_reverse {b : List Act} (hb : SwitchLog m₁ m' fired b) (hs : Switched m₁ m' fired) :
    (b.reverse.filterMap Act.reserveId).map some = fired.toList.map m'.idOf := by
  have hid : m'.idOf = m₁.idOf := funext fun x => by rw [idOf, hs.ids, idOf]
  rw [List.filterMap_reverse, List.map_reverse, hb.reserves, ← List.map_reverse, reverse_toList, hid]

theorem started_of_grown (hg : Grown m m₁) (hs : Switched m₁ m' fired) : started m m' = [] := by
  obtain ⟨a, hl, -⟩ := hg.log
  obtain ⟨b, hb, hacts⟩ := hs.acts hl
  rw [started, hacts, List.filterMap_append, hb.starts, hg.silent fun _ => rfl]
  rfl

theorem start_acts {m₀ : TaskManager} (hg : Grown m m₀) (ref : Ref) :
    ∃ a, (m₀.start ref).log = a ++ m.log ∧ a.filterMap Act.startsJob = [(m₀.heap ref).mt.id] ∧
      a.filterMap Act.decidesJob = [] ∧ (a.reverse.filterMap Act.reserveId) = (m₀.heap ref).ids := by
  obtain ⟨a₀, hl, ha₀⟩ := hg.log
  have hsilent : ∀ f : Act → Option Nat, (∀ k, f (.updateTask k) = none) → a₀.filterMap f = [] := by
    intro f hf
    rw [← acts_eq hl]
    exact hg.silent hf
  have hasks : ∀ f : Act → Option Nat, (∀ tc, f (.askReserve tc) = none) →
      ((Wellformed.startedJob (m₀.heap ref)).transactions.map fun tc =>
        Act.askReserve tc.mt).reverse.filterMap f =
        [] := by
    intro f hf
    simp [hf]
  refine ⟨((Wellformed.startedJob (m₀.heap ref)).transactions.map fun tc => Act.askReserve tc.mt).reverse ++
    .started (m₀.heap ref).mt.id :: a₀, ?_, ?_, ?_, ?_⟩
  · rw [Wellformed.start_log, hl, List.append_assoc]
    rfl
  · rw [List.filterMap_append, hasks _ fun _ => rfl, List.filterMap_cons, hsilent _ fun _ => rfl]
    rfl
  · rw [List.filterMap_append, hasks _ fun _ => rfl, List.filterMap_cons, hsilent _ fun _ => rfl]
    rfl
  · rw [List.filterMap_reverse, List.filterMap_append, List.filterMap_cons, hsilent _ fun _ => rfl,
      List.filterMap_reverse, List.filterMap_map, ← startedJob_ids, Job.ids]
    simp [Function.comp_def, Act.reserveId]

theorem started_of_start {m₀ : TaskManager} {ref : Ref} (hg : Grown m m₀)
    (hs : Switched (m₀.start ref) m' fired) :
    started m m' = [ref] := by
  obtain ⟨a, hl, hstart, -, -⟩ := start_acts hg ref
  obtain ⟨b, hb, hacts⟩ := hs.acts hl
  have hobject : (m'.tjs[(m₀.heap ref).mt.id]?).map (·.resource) = some ref := by
    rw [hs.tjs, Wellformed.start_tjs, ExtMap.getElem?_insert, if_pos rfl]
    rfl
  rw [started, hacts, acts_eq hl, List.filterMap_append, hb.starts, hstart, List.nil_append, objects]
  simp [hobject]

theorem wait_starts (hm : Recorded m) (h : m.wait e = some m') :
    ∃ m₁, Switched m₁ m' (m.resent e) ∧ (Grown m m₁ ∧ started m m' = [] ∨
      ∃ m₀ ref, Grown m m₀ ∧ m₁ = m₀.start ref ∧ started m m' = [ref] ∧ (ref ∈ m.jobs ∨ m.next ≤ ref)) := by
  obtain ⟨m₁, hent, hs⟩ := wait_switched hm h
  refine ⟨m₁, hs, ?_⟩
  cases hent with
  | grown hg => exact .inl ⟨hg, started_of_grown hg hs⟩
  | @started m₀ ref hg _ ho => exact .inr ⟨m₀, ref, hg, rfl, started_of_start hg hs, ho⟩

theorem reserved_logged (hm : Recorded m) (h : m.wait e = some m') :
    ((acts m m').reverse.filterMap Act.reserveId).map some = (reserved m e m').map m'.idOf := by
  obtain ⟨m₁, hs, ⟨hg, hstart⟩ | ⟨m₀, ref, hg, rfl, hstart, -⟩⟩ := wait_starts hm h
  · obtain ⟨a, hl, -⟩ := hg.log
    obtain ⟨b, hb, hacts⟩ := hs.acts hl
    rw [reserved, hstart, hacts, List.reverse_append, List.filterMap_append, List.filterMap_reverse,
      hg.silent fun _ => rfl, List.reverse_nil, List.nil_append, hb.reserves_reverse hs]
    rfl
  · obtain ⟨a, hl, -, -, hids⟩ := start_acts hg ref
    obtain ⟨b, hb, hacts⟩ := hs.acts hl
    have hids' : (m'.heap ref).ids = (m₀.heap ref).ids := by rw [hs.ids, start_ids]
    have hlen : (m'.heap ref).transactions.length = (m'.heap ref).ids.length := by
      rw [Job.ids, List.length_map]
    rw [reserved, hstart, hacts, List.reverse_append, List.filterMap_append, acts_eq hl, hids,
      List.map_append, hb.reserves_reverse hs, List.map_append, List.flatMap_cons, List.flatMap_nil,
      List.append_nil, List.map_map, hlen, ← hids', ← range_map_getElem?]
    rfl

end Iteration

section Budget

variable {ref : Ref} {i n : Nat}

theorem count_launches (ref ref' : Ref) (i k : Nat) :
    ((List.range k).map (ref', ·)).count (ref, i) ≤ if ref = ref' then 1 else 0 := by
  split
  · exact List.nodup_iff_count_le_one.mp (List.nodup_range.map fun a b h => congrArg Prod.snd h) _
  · next hne =>
    rw [Nat.le_zero, List.count_eq_zero]
    intro hmem
    obtain ⟨j, -, hj⟩ := List.mem_map.mp hmem
    exact hne (congrArg Prod.fst hj).symm

/-- An iteration that does not start the job object launches a request for a transaction object only at
the cost of the retries that are left. -/
theorem wait_spends (hm : Recorded m) (h : m.wait e = some m') (hne : ref ∉ started m m')
    (hw : Within m (ref, i) n) :
    ∃ n', Within m' (ref, i) n' ∧ (reserved m e m').count (ref, i) + n' ≤ n := by
  obtain ⟨m₁, hs, ⟨hg, hstart⟩ | ⟨m₀, ref', hg, rfl, hstart, -⟩⟩ := wait_starts hm h
  · obtain ⟨n', hw', hle⟩ := hs.spends (ref, i) n (hw.grown hg)
    refine ⟨n', hw', ?_⟩
    rw [reserved, hstart, List.flatMap_nil, List.nil_append, count_toList]
    exact hle
  · have hother : ref ≠ ref' := by simpa [hstart] using hne
    obtain ⟨n', hw', hle⟩ := hs.spends (ref, i) n (start_within_other (hw.grown hg) hother)
    refine ⟨n', hw', ?_⟩
    have hcount := count_launches ref ref' i (m'.heap ref').transactions.length
    rw [if_neg hother] at hcount
    rw [reserved, hstart, List.flatMap_cons, List.flatMap_nil, List.append_nil,
      List.count_append, count_toList]
    omega

/-- The iteration of a start launches one request for each transaction object and leaves the retries,
less the one that it may already spend. -/
theorem wait_grants (hm : Recorded m) (h : m.wait e = some m') (hstart : ref ∈ started m m')
    {tc : Transaction} (htc : (m'.heap ref).transactions[i]? = some tc) :
    ∃ n', Within m' (ref, i) n' ∧ (reserved m e m').count (ref, i) + n' ≤ 1 + tc.mt.retries := by
  obtain ⟨m₁, hs, ⟨hg, hnone⟩ | ⟨m₀, ref', hg, rfl, hone, -⟩⟩ := wait_starts hm h
  · simp [hnone] at hstart
  · obtain rfl : ref = ref' := by simpa [hone] using hstart
    have hset : (m₀.heap ref).settings[i]? = some (tc.mt.timeout, tc.mt.retries) := by
      rw [← start_settings m₀ ref ref, ← hs.settings ref, Job.settings, List.getElem?_map, htc]
      rfl
    obtain ⟨n', hw', hle⟩ := hs.spends (ref, i) _ (start_within (hm.grown hg) hset)
    refine ⟨n', hw', ?_⟩
    have hcount := count_launches ref ref i (m'.heap ref).transactions.length
    rw [if_pos rfl] at hcount
    rw [reserved, hone, List.flatMap_cons, List.flatMap_nil, List.append_nil, List.count_append, count_toList]
    dsimp only at hle
    omega

theorem Gone.not_started (hg : Gone m ref) (hm : Recorded m) (h : m.wait e = some m') :
    ref ∉ started m m' := by
  obtain ⟨m₁, hs, ⟨-, hstart⟩ | ⟨m₀, ref', -, rfl, hstart, ho⟩⟩ := wait_starts hm h
  · simp [hstart]
  · rw [hstart, List.mem_singleton]
    rintro rfl
    rcases ho with hmem | hle
    · exact hg.queued hmem
    · exact absurd hg.lt (Nat.not_lt.mpr hle)

/-- A run launches no more requests than there are retries left. -/
theorem launched_le (hm : Recorded m) (hg : Gone m ref) (hw : Within m (ref, i) n) (es : List Event) :
    launched ref i m es ≤ n := by
  induction es generalizing m n with
  | nil => exact Nat.zero_le _
  | cons e es ih =>
    rw [launched]
    split
    · exact Nat.zero_le _
    · next m' h =>
      obtain ⟨n', hw', hle⟩ := wait_spends hm h (hg.not_started hm h) hw
      have hrest := ih (hm.wait h) (hg.wait h) hw'
      omega

theorem gone_of_mem_objects (hm : Recorded m) {ids : List Nat} (h : ref ∈ m.objects ids) : Gone m ref := by
  obtain ⟨k, -, hk⟩ := mem_objects.mp h
  obtain ⟨tj, hj, rfl⟩ := Option.map_eq_some_iff.mp hk
  exact hm.running k tj hj

theorem wait_settles (hm : Recorded m) (h : m.wait e = some m') (href : ref ∈ settled m m') :
    Within m' (ref, i) 0 := by
  obtain ⟨m₁, hs, ⟨hg, -⟩ | ⟨m₀, ref', hg, rfl, -⟩⟩ := wait_starts hm h
  · obtain ⟨a, hl, -⟩ := hg.log
    refine hs.settled hl ?_ href i
    rw [← acts_eq hl]
    exact hg.silent fun _ => rfl
  · obtain ⟨a, hl, -, hdecide, -⟩ := start_acts hg ref'
    exact hs.settled hl hdecide href i

theorem recorded_of_reaches (h : Reaches wait (fun _ _ => True) empty m) : Recorded m :=
  h.invariant .empty fun _ _ _ hs _ hstep => hs.wait hstep

/-- Every reserve request in the log of an iteration is for a transaction object of the job object that
it starts, or for one whose request it resends. In the iteration of a start and all later ones, a
transaction object of the job object is asked to reserve at most once more than its retries say. After
`confirmed` or `canceled` it is never asked again. -/
theorem reserve_budget (hm : Reaches wait (fun _ _ => True) empty m) (h : m.wait e = some m')
    (ref : Ref) (i : Nat) (es : List Event) :
    ((acts m m').reverse.filterMap Act.reserveId).map some = (reserved m e m').map m'.idOf ∧
    (∀ tc, ref ∈ started m m' → (m'.heap ref).transactions[i]? = some tc →
      (reserved m e m').count (ref, i) + launched ref i m' es ≤ 1 + tc.mt.retries) ∧
    (ref ∈ settled m m' → launched ref i m' es = 0) := by
  have hrec := recorded_of_reaches hm
  have hrec' := hrec.wait h
  refine ⟨reserved_logged hrec h, fun tc hstart htc => ?_, fun hsettled => ?_⟩
  · obtain ⟨n, hw, hle⟩ := wait_grants hrec h hstart htc
    have hrest := launched_le hrec' (gone_of_mem_objects hrec' hstart) hw es
    omega
  · have hrest := launched_le hrec' (gone_of_mem_objects hrec' hsettled)
      (wait_settles (i := i) hrec h hsettled) es
    omega

/-- Job 2 is started; five timer events resend the request of its first transaction three times. Once
both transactions have confirmed, no later message resends it. -/
theorem reserve_budget_sample :
    (∃ m m', Reaches wait (fun _ _ => True) empty m ∧ m.wait (.job 0) = some m' ∧
      (reserved m (.job 0) m').count (0, 0) + launched 0 0 m'
        (List.replicate 5 (.update (sampleMeta 2 3 .transactionTimeout) none)) = 4 ∧
      ∀ es, (reserved m (.job 0) m').count (0, 0) + launched 0 0 m' es ≤ 4) ∧
    ∃ m m', Reaches wait (fun _ _ => True) empty m ∧
      m.wait (.update (sampleMeta 2 4 .confirmed) none) = some m' ∧ ∀ es, launched 0 0 m' es = 0 := by
  constructor
  · obtain ⟨m, hm, m', h, hstart, ⟨tc, htc, hr⟩, hcount⟩ :=
      exists_reaches_of_checkedRun wait (fun _ _ => True)
      (fun m => ∃ m' ∈ m.wait (.job 0), 0 ∈ started m m' ∧
        (∃ tc ∈ (m'.heap 0).transactions[0]?, tc.mt.retries = 3) ∧
        (reserved m (.job 0) m').count (0, 0) + launched 0 0 m'
          (List.replicate 5 (.update (sampleMeta 2 3 .transactionTimeout) none)) = 4) empty
      [.task sampleTask] (by decide +kernel)
    refine ⟨m, m', hm, h, hcount, fun es => ?_⟩
    have hbudget := (reserve_budget hm h 0 0 es).2.1 tc hstart htc
    rwa [hr] at hbudget
  · obtain ⟨m, hm, m', h, hsettled⟩ := exists_reaches_of_checkedRun wait (fun _ _ => True)
      (fun m => ∃ m' ∈ m.wait (.update (sampleMeta 2 4 .confirmed) none), 0 ∈ settled m m') empty
      [.task sampleTask, .job 0, .update (sampleMeta 2 3 .confirmed) none] (by decide +kernel)
    exact ⟨m, m', hm, h, fun es => (reserve_budget hm h 0 0 es).2.2 hsettled⟩

end Budget

end Tarantula.TaskManager
