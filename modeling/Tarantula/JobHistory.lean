import Tarantula.Wellformed

/-! The log of the coordinator read job by job: what was received from the
transactions of a job and asked of them since the job was last started. -/

namespace Tarantula

def Act.concerns (j : Nat) : Act → Bool
  | .received mt => mt.jobId == j
  | .askFinish mt => mt.jobId == j
  | .finished k => k == j
  | _ => false

/-- The reports, finish requests and completions of job `j` since its last start,
latest first. -/
def history (j : Nat) (log : List Act) : List Act :=
  (log.takeWhile (· ≠ .started j)).filter (Act.concerns j)

theorem history_append {j : Nat} {acts : List Act} (log : List Act) (h : .started j ∉ acts) :
    history j (acts ++ log) = acts.filter (Act.concerns j) ++ history j log := by
  have hp : ∀ a ∈ acts, decide (a ≠ Act.started j) = true := by
    intro a ha
    simpa using fun he : a = .started j => h (he ▸ ha)
  simp only [history, List.takeWhile_append_of_pos hp, List.filter_append]

theorem history_cons {j : Nat} {a : Act} {log : List Act} (h : a ≠ .started j) :
    history j (a :: log) = if a.concerns j then a :: history j log else history j log := by
  have hs : Act.started j ∉ [a] := by simpa using h.symm
  rw [← List.singleton_append, history_append log hs, List.filter_cons]
  split <;> rfl

theorem history_started (j : Nat) (log : List Act) : history j (.started j :: log) = [] := by
  simp [history]

@[simp] theorem history_updateTask (j t : Nat) (log : List Act) :
    history j (.updateTask t :: log) = history j log := history_cons (by simp)

@[simp] theorem history_ended (j t : Nat) (log : List Act) :
    history j (.ended t :: log) = history j log := history_cons (by simp)

@[simp] theorem history_stopped (j k : Nat) (log : List Act) :
    history j (.stopped k :: log) = history j log := history_cons (by simp)

@[simp] theorem history_confirmed (j k : Nat) (log : List Act) :
    history j (.confirmed k :: log) = history j log := history_cons (by simp)

@[simp] theorem history_canceled (j k : Nat) (log : List Act) :
    history j (.canceled k :: log) = history j log := history_cons (by simp)

@[simp] theorem history_askReserve (j : Nat) (mt : Meta) (log : List Act) :
    history j (.askReserve mt :: log) = history j log := history_cons (by simp)

@[simp] theorem history_received (j : Nat) (mt : Meta) (log : List Act) :
    history j (.received mt :: log) =
      if mt.jobId = j then .received mt :: history j log else history j log := by
  simp [history_cons, Act.concerns]

@[simp] theorem history_finished (j k : Nat) (log : List Act) :
    history j (.finished k :: log) =
      if k = j then .finished k :: history j log else history j log := by
  simp [history_cons, Act.concerns]

@[simp] theorem history_askFinish (j : Nat) (mt : Meta) (log : List Act) :
    history j (.askFinish mt :: log) =
      if mt.jobId = j then .askFinish mt :: history j log else history j log := by
  simp [history_cons, Act.concerns]

theorem mem_of_mem_history {j : Nat} {a : Act} {log : List Act} (h : a ∈ history j log) : a ∈ log :=
  (List.takeWhile_sublist _).subset (List.mem_filter.mp h).1

def receivedAny (p : Meta → Bool) (log : List Act) : Bool :=
  log.any fun | .received mt => p mt | _ => false

def askedAny (p : Meta → Bool) (log : List Act) : Bool :=
  log.any fun | .askFinish mt => p mt | _ => false

def reported (j id : Nat) (st : TccState) : List Act → Bool :=
  receivedAny fun mt => mt.jobId == j && mt.id == id && mt.state == st

def asked (j id : Nat) : List Act → Bool := askedAny fun mt => mt.jobId == j && mt.id == id

def decided (j : Nat) : List Act → Bool := askedAny fun mt => mt.jobId == j

theorem receivedAny_iff {p : Meta → Bool} {log : List Act} :
    receivedAny p log = true ↔ ∃ mt, .received mt ∈ log ∧ p mt = true := by
  simp only [receivedAny, List.any_eq_true]
  constructor
  · rintro ⟨a, ha, h⟩
    cases a with
    | received mt => exact ⟨mt, ha, h⟩
    | _ => cases h
  · rintro ⟨mt, ha, h⟩
    exact ⟨_, ha, h⟩

theorem askedAny_iff {p : Meta → Bool} {log : List Act} :
    askedAny p log = true ↔ ∃ mt, .askFinish mt ∈ log ∧ p mt = true := by
  simp only [askedAny, List.any_eq_true]
  constructor
  · rintro ⟨a, ha, h⟩
    cases a with
    | askFinish mt => exact ⟨mt, ha, h⟩
    | _ => cases h
  · rintro ⟨mt, ha, h⟩
    exact ⟨_, ha, h⟩

@[simp] theorem receivedAny_received (p : Meta → Bool) (mt : Meta) (log : List Act) :
    receivedAny p (.received mt :: log) = (p mt || receivedAny p log) := rfl

@[simp] theorem receivedAny_askFinish (p : Meta → Bool) (mt : Meta) (log : List Act) :
    receivedAny p (.askFinish mt :: log) = receivedAny p log := rfl

@[simp] theorem receivedAny_finished (p : Meta → Bool) (k : Nat) (log : List Act) :
    receivedAny p (.finished k :: log) = receivedAny p log := rfl

@[simp] theorem askedAny_received (p : Meta → Bool) (mt : Meta) (log : List Act) :
    askedAny p (.received mt :: log) = askedAny p log := rfl

@[simp] theorem askedAny_askFinish (p : Meta → Bool) (mt : Meta) (log : List Act) :
    askedAny p (.askFinish mt :: log) = (p mt || askedAny p log) := rfl

@[simp] theorem askedAny_finished (p : Meta → Bool) (k : Nat) (log : List Act) :
    askedAny p (.finished k :: log) = askedAny p log := rfl

theorem receivedAny_append (p : Meta → Bool) (a b : List Act) :
    receivedAny p (a ++ b) = (receivedAny p a || receivedAny p b) := List.any_append ..

theorem askedAny_append (p : Meta → Bool) (a b : List Act) :
    askedAny p (a ++ b) = (askedAny p a || askedAny p b) := List.any_append ..

theorem reported_iff {j id : Nat} {st : TccState} {log : List Act} :
    reported j id st log = true ↔
      ∃ mt, .received mt ∈ log ∧ mt.jobId = j ∧ mt.id = id ∧ mt.state = st := by
  simp [reported, receivedAny_iff, and_assoc]

theorem decided_iff {j : Nat} {log : List Act} :
    decided j log = true ↔ ∃ mt, .askFinish mt ∈ log ∧ mt.jobId = j := by
  simp [decided, askedAny_iff]

theorem reported_append {j id : Nat} {st : TccState} {log : List Act} (acts : List Act)
    (hr : reported j id st log = true) : reported j id st (acts ++ log) = true := by
  rw [reported, receivedAny_append, show receivedAny _ log = true from hr, Bool.or_true]

theorem decided_append {j : Nat} {log : List Act} (acts : List Act)
    (hd : decided j log = true) : decided j (acts ++ log) = true := by
  rw [decided, askedAny_append, show askedAny _ log = true from hd, Bool.or_true]

theorem asked_append {j id : Nat} {log : List Act} (acts : List Act)
    (hd : asked j id log = true) : asked j id (acts ++ log) = true := by
  rw [asked, askedAny_append, show askedAny _ log = true from hd, Bool.or_true]

/-- The acts `AskFinish` of one decision: one for each transaction of the job. -/
structure Asks (dir : Directory) (j : Nat) (st : TccState) (asks : List Meta) : Prop where
  job : ∀ mt ∈ asks, mt.jobId = j
  state : ∀ mt ∈ asks, mt.state = st
  ids : asks.map (·.id) = dir.txs j

namespace Asks

variable {dir : Directory} {j : Nat} {st : TccState} {asks : List Meta}

theorem receivedAny (p : Meta → Bool) (asks : List Meta) :
    Tarantula.receivedAny p (asks.map Act.askFinish).reverse = false := by
  rw [Bool.eq_false_iff, ne_eq, receivedAny_iff]
  rintro ⟨mt, h, -⟩
  simp at h

theorem asked (h : Asks dir j st asks) {id : Nat} (hid : id ∈ dir.txs j) :
    Tarantula.asked j id (asks.map Act.askFinish).reverse = true := by
  rw [← h.ids] at hid
  obtain ⟨mt, hmt, rfl⟩ := List.mem_map.mp hid
  exact askedAny_iff.mpr ⟨mt, by simpa using hmt, by simp [h.job mt hmt]⟩

theorem decided (h : Asks dir j st asks) (hne : dir.txs j ≠ []) :
    Tarantula.decided j (asks.map Act.askFinish).reverse = true := by
  obtain ⟨id, hid⟩ := List.exists_mem_of_ne_nil _ hne
  obtain ⟨mt, hmt, hp⟩ := askedAny_iff.mp (h.asked hid)
  exact askedAny_iff.mpr ⟨mt, hmt, by simp only [Bool.and_eq_true] at hp; exact hp.1⟩

theorem history (h : Asks dir j st asks) (k : Nat) (log : List Act) :
    Tarantula.history k ((asks.map Act.askFinish).reverse ++ log) =
      if k = j then (asks.map Act.askFinish).reverse ++ Tarantula.history k log
      else Tarantula.history k log := by
  have hc : ∀ a ∈ (asks.map Act.askFinish).reverse, a.concerns k = decide (k = j) := by
    intro a ha
    obtain ⟨mt, hmt, rfl⟩ : ∃ mt ∈ asks, Act.askFinish mt = a := by simpa using ha
    simp [Act.concerns, h.job mt hmt, eq_comm, beq_eq_decide]
  rw [history_append log (by simp)]
  split
  · next hk => rw [List.filter_eq_self.mpr (fun a ha => by rw [hc a ha, decide_eq_true hk])]
  · next hk =>
    rw [List.filter_eq_nil_iff.mpr (fun a ha => by simp [hc a ha, hk]), List.nil_append]

end Asks

end Tarantula
