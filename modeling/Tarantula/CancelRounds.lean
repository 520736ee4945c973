import Mathlib.Algebra.GroupWithZero.Nat
import Mathlib.Algebra.Order.BigOperators.Group.List
import Mathlib.Algebra.Order.Group.Nat
import Tarantula.MessageSafety
import Tarantula.Settings
import Tarantula.TimerSteps

/-! The finish requests of a job. A decision asks every transaction once and leaves each
of them a budget of resends, so the number of requests is bounded by the number of
decisions; a job that is decided at most twice keeps to the bound. -/

namespace Tarantula

def Act.asksFinish (k : Nat) : Act → Bool
  | .askFinish tc => tc.jobId == k
  | _ => false

def finishAsks (k : Nat) (log : List Act) : Nat := log.countP (Act.asksFinish k)

def decisions (k : Nat) (log : List Act) : Nat := log.count (.confirmed k) + log.count (.canceled k)

theorem finishAsks_append (k : Nat) (a b : List Act) :
    finishAsks k (a ++ b) = finishAsks k a + finishAsks k b := List.countP_append

theorem decisions_append (k : Nat) (a b : List Act) :
    decisions k (a ++ b) = decisions k a + decisions k b := by
  simp only [decisions, List.count_append]
  omega

theorem finishAsks_untimed {k : Nat} {acts : List Act} (h : ∀ a ∈ acts, a.times k = false) :
    finishAsks k acts = 0 := by
  rw [finishAsks, List.countP_eq_zero]
  intro a ha
  have ht := h a ha
  cases a <;> simp_all [Act.asksFinish, Act.times]

theorem count_untimed {k : Nat} {acts : List Act} (h : ∀ a ∈ acts, a.times k = false) :
    acts.count (.confirmed k) = 0 ∧ acts.count (.canceled k) = 0 := by
  constructor <;> rw [List.count_eq_zero] <;> intro hx <;> simpa [Act.times] using h _ hx

theorem decisions_untimed {k : Nat} {acts : List Act} (h : ∀ a ∈ acts, a.times k = false) :
    decisions k acts = 0 := by
  simp [decisions, count_untimed h]

theorem sum_map_succ {l : List Nat} (hnd : l.Nodup) {a : Nat} (ha : a ∈ l) {f g : Nat → Nat}
    (hfa : f a + 1 = g a) (hf : ∀ x ∈ l, x ≠ a → f x = g x) : (l.map f).sum + 1 = (l.map g).sum := by
  have hrest : (l.erase a).map f = (l.erase a).map g := by
    apply List.map_congr_left
    intro x hx
    obtain ⟨hne, hmem⟩ := hnd.mem_erase_iff.mp hx
    exact hf x hmem hne
  rw [← List.sum_map_erase f ha, ← List.sum_map_erase g ha, hrest, ← hfa]
  omega

namespace TaskManager

/-- The resends that the timer of a transaction has left for its finish request. -/
def finishLeft (m : TaskManager) (id : Nat) : Nat :=
  match m.tms[id]? with
  | some ⟨_, r, some (.finish _ _)⟩ => r
  | _ => 0

/-- Issued and outstanding requests of job `k` are paid for by its decisions. -/
def Budget (dir : Directory) (R : Nat) (m : TaskManager) (k : Nat) : Prop :=
  finishAsks k m.log + ((dir.txs k).map m.finishLeft).sum ≤
    decisions k m.log * ((dir.txs k).length * (1 + R))

variable {dir : Directory} {Q : TaskManager → Meta → Prop} {m m' : TaskManager} {k R : Nat}

theorem finishLeft_eq {id : Nat} (h : m'.tms[id]? = m.tms[id]?) : m'.finishLeft id = m.finishLeft id := by
  rw [finishLeft, h, finishLeft]

theorem finishLeft_none {id : Nat} (h : m.tms[id]? = none) : m.finishLeft id = 0 := by
  rw [finishLeft, h]

theorem Budget.untimed (h : Budget dir R m k) (hl : Untimed k m m')
    (hle : ∀ id ∈ dir.txs k, m'.finishLeft id ≤ m.finishLeft id) : Budget dir R m' k := by
  obtain ⟨acts, hlog, ha⟩ := hl
  have hsum := List.sum_le_sum hle
  unfold Budget at h ⊢
  rw [hlog, finishAsks_append, decisions_append, finishAsks_untimed ha, decisions_untimed ha,
    Nat.zero_add, Nat.zero_add]
  omega

theorem Budget.resent (h : Budget dir R m k) {key : Nat} {tm : Timeout} {p : Retrying} {tc : Meta}
    (htm : m.tms[key]? = some tm) (hp : tm.p = some p) (hr : 0 < tm.r) (hk : tc.jobId = k)
    (hmem : key ∈ dir.txs k)
    (htms : ∀ id ∈ dir.txs k, m'.tms[id]? = if key = id then some { tm with r := tm.r - 1 } else m.tms[id]?)
    (hl : m'.log = p.ask tc :: m.log) : Budget dir R m' k := by
  have hother : ∀ id ∈ dir.txs k, id ≠ key → m'.finishLeft id = m.finishLeft id := fun id hid hne =>
    finishLeft_eq ((htms id hid).trans (if_neg fun h => hne h.symm))
  have hkey : m'.tms[key]? = some { tm with r := tm.r - 1 } := (htms key hmem).trans (if_pos rfl)
  obtain ⟨d, r, _⟩ := tm
  cases hp
  cases p with
  | reserve ref i =>
    have hle : ∀ id ∈ dir.txs k, m'.finishLeft id ≤ m.finishLeft id := by
      intro id hid
      by_cases hne : id = key
      · subst hne
        simp [finishLeft, hkey]
      · exact Nat.le_of_eq (hother id hid hne)
    have hsum := List.sum_le_sum hle
    have hasks : finishAsks k m'.log = finishAsks k m.log := by
      simp [hl, finishAsks, Retrying.ask, Act.asksFinish]
    have hdec : decisions k m'.log = decisions k m.log := by
      simp [hl, decisions, Retrying.ask]
    unfold Budget at h ⊢
    rw [hdec, hasks]
    omega
  | finish ref i =>
    have hr : 0 < r := hr
    have hsum := sum_map_succ (dir.nodup k) hmem (f := m'.finishLeft) (g := m.finishLeft)
      (by simp only [finishLeft, hkey, htm]; omega) hother
    have hasks : finishAsks k m'.log = finishAsks k m.log + 1 := by
      simp [hl, finishAsks, Retrying.ask, Act.asksFinish, hk]
    have hdec : decisions k m'.log = decisions k m.log := by
      simp [hl, decisions, Retrying.ask]
    unfold Budget at h ⊢
    rw [hdec, hasks]
    omega

theorem Budget.decided (h : Budget dir R m k) (hc : Carrying (·.2 ≤ R) m') {ref : Ref}
    {turn : Act} {mt : Meta}
    {st : TccState} {asks : List Meta} (hturn : turn = .canceled k ∨ turn = .confirmed k) (hr : ref < m'.next)
    (ha : Asks dir k st asks) (ht : Rearmed dir k m' ref (.finish ref))
    (hl : m'.log = (asks.map Act.askFinish).reverse ++ turn :: .received mt :: m.log) :
    Budget dir R m' k := by
  have hlen : asks.length = (dir.txs k).length := by rw [← ha.ids, List.length_map]
  have hleft : ∀ id ∈ dir.txs k, m'.finishLeft id ≤ R := by
    intro id hid
    obtain ⟨i, hi⟩ := List.getElem?_of_mem hid
    obtain ⟨tc, htc, htms⟩ := ht i id hi
    simp only [finishLeft, htms]
    exact hc ref hr (tc.mt.timeout, tc.mt.retries) (List.mem_map_of_mem (List.mem_of_getElem? htc))
  have hsum : ((dir.txs k).map m'.finishLeft).sum ≤ (dir.txs k).length * R := by
    have hx := List.sum_le_card_nsmul ((dir.txs k).map m'.finishLeft) R (by simpa using hleft)
    simpa using hx
  have hasks : finishAsks k m'.log = (dir.txs k).length + finishAsks k m.log := by
    have hround : finishAsks k (asks.map Act.askFinish).reverse = asks.length := by
      rw [finishAsks, List.countP_reverse, List.countP_map, List.countP_eq_length.mpr]
      simpa [Act.asksFinish] using ha.job
    have hrest : finishAsks k (turn :: .received mt :: m.log) = finishAsks k m.log := by
      rcases hturn with rfl | rfl <;> simp [finishAsks, Act.asksFinish]
    rw [hl, finishAsks_append, hround, hrest, hlen]
  have hdec : decisions k m'.log = decisions k m.log + 1 := by
    have hround : decisions k (asks.map Act.askFinish).reverse = 0 := by
      simp [decisions, List.count_eq_zero]
    rw [hl, decisions_append, hround]
    rcases hturn with rfl | rfl <;> simp [decisions] <;> omega
  have hcost : (dir.txs k).length * (1 + R) = (dir.txs k).length + (dir.txs k).length * R := by
    rw [Nat.mul_add, Nat.mul_one]
  unfold Budget at h ⊢
  rw [hasks, hdec, Nat.succ_mul]
  omega

theorem Budget.started (h : Budget dir R m k) {ref : Ref} {asks : List Meta} {acts : List Act}
    (ht : Rearmed dir k m' ref (.reserve ref)) (ha : ∀ a ∈ acts, a.times k = false)
    (hl : m'.log = (asks.map Act.askReserve).reverse ++ .started k :: (acts ++ m.log)) :
    Budget dir R m' k := by
  have hleft : ∀ id ∈ dir.txs k, m'.finishLeft id = 0 := by
    intro id hid
    obtain ⟨i, hi⟩ := List.getElem?_of_mem hid
    obtain ⟨tc, -, htms⟩ := ht i id hi
    simp only [finishLeft, htms]
  have hsum : ((dir.txs k).map m'.finishLeft).sum = 0 := by
    rw [List.map_congr_left hleft]
    simp
  have hasks : finishAsks k m'.log = finishAsks k m.log := by
    have hfirst : finishAsks k ((asks.map Act.askReserve).reverse ++ [.started k]) = 0 := by
      simp [finishAsks, List.countP_eq_zero, Act.asksFinish]
    rw [hl, List.append_cons, finishAsks_append k (_ ++ [_]), hfirst, finishAsks_append,
      finishAsks_untimed ha]
    omega
  have hdec : decisions k m'.log = decisions k m.log := by
    have hfirst : decisions k ((asks.map Act.askReserve).reverse ++ [.started k]) = 0 := by
      simp [decisions, List.count_eq_zero]
    rw [hl, List.append_cons, decisions_append k (_ ++ [_]), hfirst, decisions_append, decisions_untimed ha]
    omega
  unfold Budget at h ⊢
  rw [hasks, hdec, hsum]
  omega

theorem Budget.step (h : Budget dir R m k) (hs : Sound dir m) (hc : Carrying (·.2 ≤ R) m')
    (hn : m.next ≤ m'.next) (ht : TimerStep dir Q k m m') : Budget dir R m' k := by
  cases ht with
  | quiet _ _ htms hl => exact h.untimed hl fun id hid => Nat.le_of_eq (finishLeft_eq (htms id hid))
  | closed _ _ _ _ _ htms hl =>
    refine h.untimed hl fun id hid => ?_
    have hx := htms id hid
    split at hx
    · simp [finishLeft_none hx]
    · exact Nat.le_of_eq (finishLeft_eq hx)
  | stopped _ _ htms hl => exact h.untimed hl fun id hid => by simp [finishLeft_none (htms id hid)]
  | expired _ _ _ htms hl =>
    refine h.untimed ⟨[], hl, by simp⟩ fun id hid => ?_
    have hx := htms id hid
    split at hx
    · simp [finishLeft_none hx]
    · exact Nat.le_of_eq (finishLeft_eq hx)
  | resent _ htm hp hr _ hk hmem _ htms hl => exact h.resent htm hp hr hk hmem htms hl
  | started _ _ _ ht hl =>
    obtain ⟨acts, ha, hl⟩ := hl
    exact h.started ht ha hl
  | decided _ _ _ hj hturn ha ht hl =>
    exact h.decided hc (hturn.imp And.left And.left)
      (Nat.lt_of_lt_of_le (hs.wellformed.job _ _ hj).lt hn) ha ht hl

/-- The turns of job `k` that a step takes: none, or one by a `CANCELED` or by the
`CONFIRMED` that completes the join. -/
theorem TimerStep.turns (h : TimerStep dir Q k m m') :
    (m'.log.count (.confirmed k) = m.log.count (.confirmed k) ∧
      m'.log.count (.canceled k) = m.log.count (.canceled k)) ∨
    (∃ mt, Q m mt ∧ mt.jobId = k ∧ mt.state = .canceled ∧
      m'.log.count (.confirmed k) = m.log.count (.confirmed k) ∧
      m'.log.count (.canceled k) = m.log.count (.canceled k) + 1) ∨
    ∃ mt tj t, Q m mt ∧ mt.jobId = k ∧ mt.state = .confirmed ∧ m.tjs[mt.jobId]? = some tj ∧
      tj.joinParties = tj.confirmed + 1 ∧ tj.joining[mt.id]? = some t ∧ t.confirmed = 0 ∧
      m'.log.count (.confirmed k) = m.log.count (.confirmed k) + 1 ∧
      m'.log.count (.canceled k) = m.log.count (.canceled k) := by
  have huntimed : Untimed k m m' → m'.log.count (.confirmed k) = m.log.count (.confirmed k) ∧
      m'.log.count (.canceled k) = m.log.count (.canceled k) := by
    rintro ⟨acts, hl, ha⟩
    have h₀ := count_untimed ha
    simp [hl, h₀]
  cases h with
  | quiet _ _ _ hl => exact .inl (huntimed hl)
  | closed _ _ _ _ _ _ hl => exact .inl (huntimed hl)
  | stopped _ _ _ hl => exact .inl (huntimed hl)
  | expired _ _ _ _ hl => exact .inl (by simp [hl])
  | @resent _ _ p _ _ _ _ _ _ _ _ _ _ hl =>
    refine .inl ?_
    cases p <;> simp [hl, Retrying.ask]
  | started _ _ _ _ hl =>
    obtain ⟨acts, ha, hl⟩ := hl
    have h₀ := count_untimed ha
    exact .inl (by simp [hl, h₀, List.count_eq_zero])
  | @decided mt tj turn st asks _ hQ hk hj hs ha _ hl =>
    subst hk
    rcases hs with ⟨rfl, hst⟩ | ⟨rfl, hst, hpar, t, ht, hf⟩
    · exact .inr (.inl ⟨mt, hQ, rfl, hst, by simp [hl, List.count_eq_zero]⟩)
    · exact .inr (.inr ⟨mt, tj, t, hQ, rfl, hst, hj, hpar, ht, hf, by simp [hl, List.count_eq_zero]⟩)

/-- A job that was canceled is not canceled again while its task goes on, and one that was
confirmed is not confirmed again. -/
def DecidedOnce (m : TaskManager) (mt : Meta) : Prop :=
  (mt.state = .canceled → .canceled mt.jobId ∉ m.log) ∧
  (mt.state = .confirmed → ∀ tj ∈ m.tjs[mt.jobId]?, tj.joinParties = tj.confirmed + 1 →
    ∀ t ∈ tj.joining[mt.id]?, t.confirmed = 0 → .confirmed mt.jobId ∉ m.log)

instance (m : TaskManager) (mt : Meta) : Decidable (DecidedOnce m mt) :=
  inferInstanceAs (Decidable (_ ∧ (_ → ∀ tj ∈ m.tjs[mt.jobId]?, _ → ∀ t ∈ tj.joining[mt.id]?, _)))

/-- Events of tasks with at most `R` retries for each transaction, that decide each job
at most once in each way. -/
def Single (dir : Directory) (R : Nat) (m : TaskManager) (e : Event) : Prop :=
  e.Genuine dir m ∧ e.Carries (·.2 ≤ R) ∧ OnHandled DecidedOnce m e

instance (dir : Directory) (R : Nat) (m : TaskManager) (e : Event) : Decidable (Single dir R m e) :=
  inferInstanceAs (Decidable (_ ∧ _ ∧ _))

/-- What has been decided about job `k` so far. -/
structure Rounds (dir : Directory) (R : Nat) (m : TaskManager) (k : Nat) : Prop where
  budget : Budget dir R m k
  confirmed : m.log.count (.confirmed k) ≤ 1
  canceled : m.log.count (.canceled k) ≤ 1

theorem Rounds.step (h : Rounds dir R m k) (hs : Sound dir m) (hc : Carrying (·.2 ≤ R) m')
    (hn : m.next ≤ m'.next) (ht : TimerStep dir DecidedOnce k m m') : Rounds dir R m' k := by
  have hb := h.budget.step hs hc hn ht
  have h₁ := h.confirmed
  have h₂ := h.canceled
  rcases ht.turns with ⟨hx, hy⟩ | ⟨mt, hQ, rfl, hst, hx, hy⟩ |
    ⟨mt, tj, t, hQ, rfl, hst, hj, hl, ht, hf, hx, hy⟩
  · exact ⟨hb, by omega, by omega⟩
  · have hnot := List.count_eq_zero.mpr (hQ.1 hst)
    exact ⟨hb, by omega, by omega⟩
  · have hnot := List.count_eq_zero.mpr (hQ.2 hst tj hj hl t ht hf)
    exact ⟨hb, by omega, by omega⟩

theorem Rounds.asks_le (h : Rounds dir R m k) : finishAsks k m.log ≤ 2 * (dir.txs k).length * (1 + R) := by
  have hb := h.budget
  have h₁ := h.confirmed
  have h₂ := h.canceled
  have hd : decisions k m.log ≤ 2 := by
    unfold decisions
    omega
  calc finishAsks k m.log ≤ decisions k m.log * ((dir.txs k).length * (1 + R)) :=
        Nat.le_trans (Nat.le_add_right _ _) hb
    _ ≤ 2 * ((dir.txs k).length * (1 + R)) := Nat.mul_le_mul_right _ hd
    _ = 2 * (dir.txs k).length * (1 + R) := (Nat.mul_assoc ..).symm

theorem rounds_of_reaches (hu : dir.Unique) (h : Reaches wait (Single dir R) empty m) :
    Sound dir m ∧ Carrying (·.2 ≤ R) m ∧ ∀ k, Rounds dir R m k := by
  refine Reaches.invariant (I := fun m => Sound dir m ∧ Carrying (·.2 ≤ R) m ∧ ∀ k, Rounds dir R m k) h
    ⟨.empty dir, fun r hr => absurd hr (Nat.not_lt_zero r), fun k => ?_⟩ ?_
  · refine ⟨?_, by simp [empty], by simp [empty]⟩
    have hleft : ∀ id ∈ dir.txs k, finishLeft empty id = 0 := fun id _ => by simp [finishLeft, empty]
    rw [Budget, List.map_congr_left hleft]
    simp [finishAsks, empty]
  · rintro s e t ⟨hs, hc, hr⟩ ⟨hg, hcar, hon⟩ hstep
    have hw := wait_cases hstep
    obtain ⟨m₁, hf, hs₁, h₁, h₂⟩ := wait_micro hs hg hon hstep
    have hc₁ := hc.found hcar hf
    have hct := hc.waited hcar hw
    refine ⟨hs.waited hg.numbered hw, hct, fun k => ?_⟩
    have hr₁ := (hr k).step hs hc₁ (micro_next h₁) (.of_micro hs hu h₁)
    exact hr₁.step hs₁ hct (micro_next h₂) (.of_micro hs₁ hu h₂)

theorem find_total (m : TaskManager) {mt : Meta} {loaded : Option (Task × Nat)}
    (hs : Stored dir mt.taskId loaded) : ∃ m₁ r, m.find mt loaded = some (m₁, r) := by
  unfold find
  split
  · exact ⟨_, _, rfl⟩
  · obtain ⟨m₁, r, h, -⟩ := reload_total m hs
    exact ⟨m₁, r, h⟩

theorem find_log {mt : Meta} {loaded : Option (Task × Nat)} {r : Option TaskResource}
    (h : m.find mt loaded = some (m', r)) :
    (∀ a ∈ m.log, a ∈ m'.log) ∧ (m'.log = m.log ∧ m'.tjs = m.tjs ∨
      ∃ tr, r = some tr ∧ tr.mt.state ≠ .finished) := by
  rcases find_cases h with ⟨rfl, -⟩ | ⟨-, hr⟩
  · exact ⟨fun _ h => h, .inl ⟨rfl, rfl⟩⟩
  · cases hr with
    | failed => exact ⟨fun _ h => h, .inl ⟨rfl, rfl⟩⟩
    | jobless => exact ⟨fun _ h => h, .inl ⟨rfl, rfl⟩⟩
    | @started task rev tr ref rest hn hs hp =>
      exact ⟨fun a ha => List.mem_append_right _ (List.mem_append_right _ ha), .inr ⟨tr, rfl, hn.mt ▸ hs⟩⟩

theorem canceled_again {mt : Meta} {loaded : Option (Task × Nat)}
    (hst : mt.state = .canceled) (hc : .canceled mt.jobId ∈ m.log) (he : Single dir R m (.update mt loaded)) :
    ∃ m', m.wait (.update mt loaded) = some m' ∧ m'.log = m.log ∧ m'.tjs = m.tjs := by
  have hclear : mt.state ≠ .taskClear := by simp [hst]
  obtain ⟨m₁, r, hf⟩ := find_total m he.1.1
  obtain ⟨hmem, hsame⟩ := find_log hf
  -- the report is not handled: the job was canceled before
  have hfin : ∀ tr, r = some tr → tr.mt.state = .finished := by
    rintro tr rfl
    by_contra hne
    exact (he.2.2.apply hclear hf hne).1 hst (hmem _ hc)
  have hwait : m.wait (.update mt loaded) = some m₁ := by
    simp only [wait, hclear, if_false, hf]
    cases r with
    | none => rfl
    | some tr => simp [hfin tr rfl]
  rcases hsame with hsame | ⟨tr, rfl, hne⟩
  · exact ⟨m₁, hwait, hsame⟩
  · exact absurd (hfin tr rfl) hne

/-- In every run that decides each job at most once in each way, a further `CANCELED` of a
canceled job changes nothing, and a job of `N` transactions is issued at most
`2 * N * (1 + R)` finish requests. -/
theorem cancel_idempotent (hu : dir.Unique) (h : Reaches wait (Single dir R) empty m) :
    (∀ (mt : Meta) loaded, mt.state = .canceled → .canceled mt.jobId ∈ m.log →
      Single dir R m (.update mt loaded) →
      ∃ m', m.wait (.update mt loaded) = some m' ∧ m'.log = m.log ∧ m'.tjs = m.tjs) ∧
    ∀ k, finishAsks k m.log ≤ 2 * (dir.txs k).length * (1 + R) := by
  obtain ⟨-, -, hr⟩ := rounds_of_reaches hu h
  exact ⟨fun mt loaded hst hc he => canceled_again hst hc he, fun k => (hr k).asks_le⟩

/-- Job 2 is canceled by transaction 3, the request of transaction 4 is resent, and the
task ends; then transaction 4 reports `CANCELED` as well. -/
theorem cancel_idempotent_sample :
    ∃ m, Reaches wait (Single sampleDirectory 3) empty m ∧ finishAsks 2 m.log = 3 ∧
      finishAsks 2 m.log ≤ 2 * (sampleDirectory.txs 2).length * (1 + 3) ∧
      ∃ m', m.wait (.update (sampleMeta 2 4 .canceled) none) = some m' ∧ m'.log = m.log ∧
        m'.tjs = m.tjs := by
  obtain ⟨m, hm, hasks, hc, hs⟩ := exists_reaches_of_checkedRun wait (Single sampleDirectory 3)
    (fun m => finishAsks 2 m.log = 3 ∧ .canceled 2 ∈ m.log ∧
      Single sampleDirectory 3 m (.update (sampleMeta 2 4 .canceled) none)) empty
    [.task sampleTask, .job 0, .update (sampleMeta 2 4 .confirmed) none,
      .update (sampleMeta 2 3 .canceled) none, .update (sampleMeta 2 4 .transactionTimeout) none,
      .update (sampleMeta 2 3 .finished) none, .update (sampleMeta 2 4 .finished) none] (by decide)
  have h := cancel_idempotent sampleDirectory_unique hm
  exact ⟨m, hm, hasks, h.2 2, h.1 (sampleMeta 2 4 .canceled) none rfl hc hs⟩

/-- Job 2 is canceled and transaction 3 has finished when transaction 4 reports
`CANCELED`: both transactions are asked again and the counter of the `FINISHED` reports
is reset. A participant that keeps answering so exceeds every bound. -/
theorem cancel_not_idempotent :
    (∃ m m', Reaches wait (fun m e => e.Genuine sampleDirectory m ∧ e.Carries (·.2 ≤ 3)) empty m ∧
      .canceled 2 ∈ m.log ∧ m.wait (.update (sampleMeta 2 4 .canceled) none) = some m' ∧
      finishAsks 2 m'.log = finishAsks 2 m.log + 2 ∧
      (m.tjs[2]?).map (·.confirmed) = some 1 ∧ (m'.tjs[2]?).map (·.confirmed) = some 0) ∧
    ∃ m, Reaches wait (fun m e => e.Genuine sampleDirectory m ∧ e.Carries (·.2 ≤ 3)) empty m ∧
      2 * (sampleDirectory.txs 2).length * (1 + 3) < finishAsks 2 m.log := by
  constructor
  · obtain ⟨m, hm, hc, m', hw, hx⟩ := exists_reaches_of_checkedRun wait
      (fun m e => e.Genuine sampleDirectory m ∧ e.Carries (·.2 ≤ 3))
      (fun m => .canceled 2 ∈ m.log ∧ ∃ m' ∈ m.wait (.update (sampleMeta 2 4 .canceled) none),
        finishAsks 2 m'.log = finishAsks 2 m.log + 2 ∧
        (m.tjs[2]?).map (·.confirmed) = some 1 ∧ (m'.tjs[2]?).map (·.confirmed) = some 0) empty
      [.task sampleTask, .job 0, .update (sampleMeta 2 3 .canceled) none,
        .update (sampleMeta 2 3 .finished) none] (by decide)
    exact ⟨m, m', hm, hc, hw, hx⟩
  · exact exists_reaches_of_checkedRun wait (fun m e => e.Genuine sampleDirectory m ∧ e.Carries (·.2 ≤ 3))
      (fun m => 2 * (sampleDirectory.txs 2).length * (1 + 3) < finishAsks 2 m.log) empty
      ([.task sampleTask, .job 0] ++ List.replicate 9 (.update (sampleMeta 2 4 .canceled) none))
      (by decide)

end TaskManager

end Tarantula
