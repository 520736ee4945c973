import Mathlib.Data.List.Induction
import Tarantula.ByteBuffer
import Tarantula.Protocol

/-! The builders of a task. A builder holds pointers to what it builds, so that a call on a
transaction or on a job still counts after it was added; what is sent is the tree at the time of the
last `Build`. A part of a message may be missing. -/

namespace Tarantula

namespace Wire

structure Transaction (μ : Type) where
  mt : Option Meta
  object : Option Bytes
  data : Option Bytes
  message : Option μ
  deriving DecidableEq, Repr

structure Job (μ : Type) where
  mt : Option Meta
  transactions : List (Transaction μ)
  deriving DecidableEq, Repr

structure Task (μ : Type) where
  mt : Option Meta
  validator : Option (Job μ)
  jobs : List (Job μ)
  deriving DecidableEq, Repr

/-- The validator, when there is one, followed by the jobs. -/
def Task.allJobs {μ : Type} (task : Task μ) : List (Job μ) := task.validator.toList ++ task.jobs

end Wire

/-- The target of a `JobBuilder`, with the numbers of the transactions that were added to it. -/
structure JobBuilder where
  mt : Option Meta
  transactions : List Nat
  deriving DecidableEq, Repr

structure TransactionBuilder (μ : Type) where
  jb : Nat
  target : Wire.Transaction μ
  deriving DecidableEq, Repr

/-- A `TaskBuilder` with all builders that it has given out, by number. Job builder 0 is `vb`, and
`jobs` are the numbers of the jobs that were added. -/
structure TaskBuilder (μ : Type) where
  mt : Option Meta
  builders : List JobBuilder
  transactions : List (TransactionBuilder μ)
  jobs : List Nat
  deriving DecidableEq, Repr

/-- A call on the builder of the task, of the job `jb` or of the transaction `tx`. -/
inductive BuildCall (μ : Type)
  | validator (mt : Option Meta)
  | job (mt : Option Meta)
  | transaction (jb : Nat)
  | buildJob (jb : Nat)
  | metadata (tx : Nat) (mt : Option Meta)
  | object (tx : Nat) (obj : Option Bytes)
  | data (tx : Nat) (data : Option Bytes)
  | message (tx : Nat) (message : Option μ)
  | buildTransaction (tx : Nat)
  deriving DecidableEq, Repr

namespace TaskBuilder

variable {μ : Type}

def new (mt : Option Meta) : TaskBuilder μ := ⟨mt, [⟨none, []⟩], [], []⟩

def set (b : TaskBuilder μ) (tx : Nat) (f : Wire.Transaction μ → Wire.Transaction μ) :
    Option (TaskBuilder μ) :=
  if tx < b.transactions.length then
    some { b with transactions := b.transactions.modify tx fun t => { t with target := f t.target } }
  else none

/-- `none` for a builder that does not exist. The builder of the validator has no task to add it to. -/
def step (b : TaskBuilder μ) : BuildCall μ → Option (TaskBuilder μ)
  | .validator mt => some { b with builders := b.builders.modify 0 ({ · with mt := mt }) }
  | .job mt => some { b with builders := b.builders ++ [⟨mt, []⟩] }
  | .transaction jb =>
    if jb < b.builders.length then
      some { b with transactions := b.transactions ++ [⟨jb, ⟨none, none, none, none⟩⟩] }
    else none
  | .buildJob jb =>
    if jb < b.builders.length then some (if jb = 0 then b else { b with jobs := b.jobs ++ [jb] }) else none
  | .metadata tx mt => b.set tx ({ · with mt := mt })
  | .object tx obj => b.set tx ({ · with object := obj })
  | .data tx data => b.set tx ({ · with data := data })
  | .message tx message => b.set tx ({ · with message := message })
  | .buildTransaction tx =>
    b.transactions[tx]?.map fun t =>
      { b with builders := b.builders.modify t.jb fun jb =>
        { jb with transactions := jb.transactions ++ [tx] } }

def run (mt : Option Meta) (calls : List (BuildCall μ)) : Option (TaskBuilder μ) := calls.foldlM step (new mt)

def target (b : TaskBuilder μ) (jb : JobBuilder) : Wire.Job μ :=
  ⟨jb.mt, jb.transactions.filterMap fun tx => b.transactions[tx]?.map (·.target)⟩

def build (b : TaskBuilder μ) : Wire.Task μ :=
  ⟨b.mt, b.builders[0]?.map b.target, b.jobs.filterMap fun jb => b.builders[jb]?.map b.target⟩

theorem run_append_singleton (mt : Option Meta) (calls : List (BuildCall μ)) (c : BuildCall μ) :
    run mt (calls ++ [c]) = (run mt calls).bind (·.step c) := by
  rw [run, List.foldlM_append]
  simp only [List.foldlM_cons, List.foldlM_nil, bind_pure]
  rfl

end TaskBuilder

namespace BuildCall

variable {μ : Type}

/-- Every Meta that is given is there. -/
structure Present (calls : List (BuildCall μ)) : Prop where
  validator : ∀ mt, .validator mt ∈ calls → mt.isSome
  job : ∀ mt, .job mt ∈ calls → mt.isSome
  metadata : ∀ tx mt, .metadata tx mt ∈ calls → mt.isSome

/-- No Meta is missing: not of a job, nor of the validator where there is a call for it, nor of a
transaction that is added. -/
structure Given (calls : List (BuildCall μ)) : Prop extends Present calls where
  transaction : ∀ tx, .buildTransaction tx ∈ calls → ∃ mt, .metadata tx mt ∈ calls

theorem Present.of_append {calls rest : List (BuildCall μ)} (h : Present (calls ++ rest)) :
    Present calls where
  validator mt hmt := h.validator mt (List.mem_append_left rest hmt)
  job mt hmt := h.job mt (List.mem_append_left rest hmt)
  metadata tx mt hmt := h.metadata tx mt (List.mem_append_left rest hmt)

end BuildCall

namespace TaskBuilder

variable {μ : Type} {mt : Option Meta} {calls : List (BuildCall μ)} {c : BuildCall μ} {b b' : TaskBuilder μ}

/-- What the builders hold after a sequence of calls. -/
structure After (mt : Option Meta) (calls : List (BuildCall μ)) (b : TaskBuilder μ) : Prop where
  mt_eq : b.mt = mt
  validator : ∃ vb, b.builders[0]? = some vb ∧ (vb.mt.isSome ↔ ∃ mt, .validator mt ∈ calls)
  jobs : ∀ i jb, b.builders[i + 1]? = some jb → jb.mt.isSome
  added : ∀ jb ∈ b.builders, ∀ tx ∈ jb.transactions, .buildTransaction tx ∈ calls
  known : ∀ tx mt, .metadata tx mt ∈ calls → tx < b.transactions.length
  given : ∀ tx t, b.transactions[tx]? = some t → (∃ mt, .metadata tx mt ∈ calls) → t.target.mt.isSome
  nonzero : 0 ∉ b.jobs

theorem After.new (mt : Option Meta) : After mt [] (new (μ := μ) mt) where
  mt_eq := rfl
  validator := ⟨_, rfl, by simp⟩
  jobs i jb hjb := by cases hjb
  added jb hjb := by
    rw [List.mem_singleton.mp hjb]
    simp
  known tx mt h := by cases h
  given tx t h := by cases h
  nonzero := List.not_mem_nil

theorem mem_calls {d : BuildCall μ} : d ∈ calls ++ [c] ↔ d ∈ calls ∨ d = c := by simp

theorem exists_validator_iff (hc : ∀ m, c ≠ .validator m) :
    (∃ m, .validator m ∈ calls ++ [c]) ↔ ∃ m, .validator m ∈ calls := by
  constructor
  · rintro ⟨m, hm⟩
    rcases mem_calls.mp hm with hm | hm
    · exact ⟨m, hm⟩
    · exact absurd hm.symm (hc m)
  · rintro ⟨m, hm⟩
    exact ⟨m, mem_calls.mpr (.inl hm)⟩

theorem After.set {tx : Nat} {f : Wire.Transaction μ → Wire.Transaction μ} (h : After mt calls b)
    (hb : b.set tx f = some b') (hc : ∀ m, c ≠ .validator m)
    (hknown : ∀ tx' m, c = .metadata tx' m → tx' = tx)
    (hsome : ∀ t, t.mt.isSome → (f t).mt.isSome) (hnew : ∀ m, c = .metadata tx m → ∀ t, (f t).mt.isSome) :
    After mt (calls ++ [c]) b' := by
  unfold TaskBuilder.set at hb
  split at hb
  · next hlt =>
    cases hb
    obtain ⟨vb, hvb, hiff⟩ := h.validator
    refine ⟨h.mt_eq, ⟨vb, hvb, hiff.trans (exists_validator_iff hc).symm⟩, h.jobs, ?_, ?_, ?_, h.nonzero⟩
    · intro jb hjb tx' htx
      exact mem_calls.mpr (.inl (h.added jb hjb tx' htx))
    · intro tx' m hm
      rw [List.length_modify]
      rcases mem_calls.mp hm with hm | hm
      · exact h.known tx' m hm
      · rw [hknown tx' m hm.symm]
        exact hlt
    · intro tx' t ht hgiven
      rw [List.getElem?_modify] at ht
      obtain ⟨old, hold, rfl⟩ := Option.map_eq_some_iff.mp ht
      obtain ⟨m, hm⟩ := hgiven
      rcases mem_calls.mp hm with hm | hm
      · have hgot := h.given tx' old hold ⟨m, hm⟩
        split
        · exact hsome _ hgot
        · exact hgot
      · obtain rfl := hknown tx' m hm.symm
        rw [if_pos rfl]
        exact hnew m hm.symm _
  · cases hb

theorem After.of_transactions (h : After mt calls b) (hc : ∀ tx m, c ≠ .metadata tx m) (hmt : b'.mt = b.mt)
    (htxs : b'.transactions = b.transactions)
    (hvalidator : ∃ vb, b'.builders[0]? = some vb ∧ (vb.mt.isSome ↔ ∃ m, .validator m ∈ calls ++ [c]))
    (hjobs : ∀ i jb, b'.builders[i + 1]? = some jb → jb.mt.isSome)
    (hadded : ∀ jb ∈ b'.builders, ∀ tx ∈ jb.transactions, .buildTransaction tx ∈ calls ++ [c])
    (hnonzero : 0 ∉ b'.jobs) : After mt (calls ++ [c]) b' := by
  have hold : ∀ tx m, .metadata tx m ∈ calls ++ [c] → .metadata tx m ∈ calls := by
    intro tx m hm
    rcases mem_calls.mp hm with hm | hm
    · exact hm
    · exact absurd hm.symm (hc tx m)
  refine ⟨hmt.trans h.mt_eq, hvalidator, hjobs, hadded, ?_, ?_, hnonzero⟩
  · intro tx m hm
    rw [htxs]
    exact h.known tx m (hold tx m hm)
  · rintro tx t ht ⟨m, hm⟩
    rw [htxs] at ht
    exact h.given tx t ht ⟨m, hold tx m hm⟩

theorem After.added_append (h : After mt calls b) (c : BuildCall μ) :
    ∀ jb ∈ b.builders, ∀ tx ∈ jb.transactions, .buildTransaction tx ∈ calls ++ [c] := by
  intro jb hjb tx htx
  exact mem_calls.mpr (.inl (h.added jb hjb tx htx))

theorem After.of_validator {m : Option Meta} (h : After mt calls b) (hb : b.step (.validator m) = some b')
    (hm : m.isSome) : After mt (calls ++ [.validator m]) b' := by
  obtain ⟨vb, hvb, -⟩ := h.validator
  cases hb
  refine h.of_transactions (by simp) rfl rfl ⟨{ vb with mt := m }, ?_, ?_⟩ ?_ ?_ h.nonzero
  · simp [hvb]
  · simp only [hm, true_iff]
    exact ⟨m, mem_calls.mpr (.inr rfl)⟩
  · intro i jb hjb
    dsimp only at hjb
    rw [List.getElem?_modify_ne _ _ (Nat.succ_ne_zero i).symm] at hjb
    exact h.jobs i jb hjb
  · intro jb hjb
    obtain ⟨i, hi⟩ := List.getElem?_of_mem hjb
    rw [List.getElem?_modify] at hi
    obtain ⟨old, hold, rfl⟩ := Option.map_eq_some_iff.mp hi
    have htxs := h.added_append (.validator m) old (List.mem_of_getElem? hold)
    split
    · exact htxs
    · exact htxs

theorem After.of_job {m : Option Meta} (h : After mt calls b) (hb : b.step (.job m) = some b')
    (hm : m.isSome) :
    After mt (calls ++ [.job m]) b' := by
  obtain ⟨vb, hvb, hiff⟩ := h.validator
  cases hb
  refine h.of_transactions (by simp) rfl rfl
    ⟨vb, ?_, hiff.trans (exists_validator_iff (by simp)).symm⟩ ?_ ?_ h.nonzero
  · exact List.getElem?_append_left (List.getElem?_eq_some_iff.mp hvb).1 |>.trans hvb
  · intro i jb hjb
    rw [List.getElem?_append] at hjb
    split at hjb
    · exact h.jobs i jb hjb
    · rw [List.getElem?_singleton] at hjb
      split at hjb
      · cases hjb
        exact hm
      · cases hjb
  · intro jb hjb
    rcases List.mem_append.mp hjb with hjb | hjb
    · exact h.added_append _ jb hjb
    · rw [List.mem_singleton.mp hjb]
      simp

theorem After.of_transaction {jb : Nat} (h : After mt calls b) (hb : b.step (.transaction jb) = some b') :
    After mt (calls ++ [.transaction jb]) b' := by
  obtain ⟨vb, hvb, hiff⟩ := h.validator
  rw [TaskBuilder.step] at hb
  split at hb
  · cases hb
    have hold : ∀ tx m, .metadata tx m ∈ calls ++ [.transaction jb] → .metadata tx m ∈ calls := by
      intro tx m hm
      simpa using hm
    refine ⟨h.mt_eq, ⟨vb, hvb, hiff.trans (exists_validator_iff (by simp)).symm⟩, h.jobs,
      h.added_append _, ?_, ?_, h.nonzero⟩
    · intro tx m hm
      have hlt := h.known tx m (hold tx m hm)
      rw [List.length_append]
      omega
    · rintro tx t ht ⟨m, hm⟩
      rw [List.getElem?_append_left (h.known tx m (hold tx m hm))] at ht
      exact h.given tx t ht ⟨m, hold tx m hm⟩
  · cases hb

theorem After.of_buildJob {jb : Nat} (h : After mt calls b) (hb : b.step (.buildJob jb) = some b') :
    After mt (calls ++ [.buildJob jb]) b' := by
  obtain ⟨vb, hvb, hiff⟩ := h.validator
  rw [TaskBuilder.step] at hb
  split at hb
  · cases hb
    have hv := hiff.trans (exists_validator_iff (c := .buildJob jb) (by simp)).symm
    split
    · exact h.of_transactions (by simp) rfl rfl ⟨vb, hvb, hv⟩ h.jobs (h.added_append _) h.nonzero
    · next hjb =>
      refine h.of_transactions (by simp) rfl rfl ⟨vb, hvb, hv⟩ h.jobs (h.added_append _) ?_
      have hz := h.nonzero
      simp [hz, Ne.symm hjb]
  · cases hb

theorem getElem?_modify_transactions {builders : List JobBuilder} {k tx i : Nat} {jb : JobBuilder}
    (hjb : (builders.modify k fun jb => { jb with transactions := jb.transactions ++ [tx] })[i]? = some jb) :
    ∃ old, builders[i]? = some old ∧ jb.mt = old.mt ∧
      ∀ x ∈ jb.transactions, x ∈ old.transactions ∨ x = tx := by
  rw [List.getElem?_modify] at hjb
  obtain ⟨old, hold, rfl⟩ := Option.map_eq_some_iff.mp hjb
  refine ⟨old, hold, ?_, ?_⟩
  · split <;> rfl
  · intro x hx
    split at hx
    · simpa using hx
    · exact .inl hx

theorem After.of_buildTransaction {tx : Nat} (h : After mt calls b)
    (hb : b.step (.buildTransaction tx) = some b') :
    After mt (calls ++ [.buildTransaction tx]) b' := by
  obtain ⟨vb, hvb, hiff⟩ := h.validator
  obtain ⟨t, ht, rfl⟩ := Option.map_eq_some_iff.mp hb
  have hv := hiff.trans (exists_validator_iff (c := .buildTransaction tx) (by simp)).symm
  refine h.of_transactions (by simp) rfl rfl ?_ ?_ ?_ h.nonzero
  · have hsome : (b.builders.modify t.jb
        fun jb => { jb with transactions := jb.transactions ++ [tx] })[0]?.isSome := by
      rw [List.getElem?_modify, hvb]
      rfl
    obtain ⟨jb, hjb⟩ := Option.isSome_iff_exists.mp hsome
    obtain ⟨old, hold, hmt, -⟩ := getElem?_modify_transactions hjb
    obtain rfl := Option.some.inj (hvb.symm.trans hold)
    exact ⟨jb, hjb, hmt ▸ hv⟩
  · intro i jb hjb
    obtain ⟨old, hold, hmt, -⟩ := getElem?_modify_transactions hjb
    rw [hmt]
    exact h.jobs i old hold
  · intro jb hjb x hx
    obtain ⟨i, hi⟩ := List.getElem?_of_mem hjb
    obtain ⟨old, hold, -, htxs⟩ := getElem?_modify_transactions hi
    rcases htxs x hx with hx | rfl
    · exact h.added_append _ old (List.mem_of_getElem? hold) x hx
    · exact mem_calls.mpr (.inr rfl)

theorem After.step (h : After mt calls b) (hb : b.step c = some b') (hp : BuildCall.Present (calls ++ [c])) :
    After mt (calls ++ [c]) b' := by
  cases c with
  | validator m => exact h.of_validator hb (hp.validator m (mem_calls.mpr (.inr rfl)))
  | job m => exact h.of_job hb (hp.job m (mem_calls.mpr (.inr rfl)))
  | transaction jb => exact h.of_transaction hb
  | buildJob jb => exact h.of_buildJob hb
  | buildTransaction tx => exact h.of_buildTransaction hb
  | metadata tx m =>
    have hm : m.isSome := hp.metadata tx m (mem_calls.mpr (.inr rfl))
    rw [TaskBuilder.step] at hb
    exact h.set hb (by simp) (by simp +contextual) (fun _ _ => hm) fun _ _ _ => hm
  | object tx obj =>
    rw [TaskBuilder.step] at hb
    exact h.set hb (by simp) (by simp) (fun _ ht => ht) (by simp)
  | data tx data =>
    rw [TaskBuilder.step] at hb
    exact h.set hb (by simp) (by simp) (fun _ ht => ht) (by simp)
  | message tx message =>
    rw [TaskBuilder.step] at hb
    exact h.set hb (by simp) (by simp) (fun _ ht => ht) (by simp)

theorem after_run (hrun : run mt calls = some b) (hp : BuildCall.Present calls) : After mt calls b := by
  induction calls using List.reverseRecOn generalizing b with
  | nil =>
    cases hrun
    exact .new mt
  | append_singleton calls c ih =>
    rw [run_append_singleton] at hrun
    obtain ⟨b₁, hrun, hstep⟩ := Option.bind_eq_some_iff.mp hrun
    exact (ih hrun hp.of_append).step hstep hp

/-- In the tree that is built only the Meta of the task and of the validator can be missing. -/
theorem build_given (hrun : run mt calls = some b) (hg : BuildCall.Given calls) :
    b.build.mt = mt ∧ (∃ vb, b.build.validator = some vb ∧ (vb.mt.isSome ↔ ∃ m, .validator m ∈ calls) ∧
        ∀ t ∈ vb.transactions, t.mt.isSome) ∧
      ∀ job ∈ b.build.jobs, job.mt.isSome ∧ ∀ t ∈ job.transactions, t.mt.isSome := by
  have h := after_run hrun hg.toPresent
  have htarget : ∀ jb ∈ b.builders, ∀ t ∈ (b.target jb).transactions, t.mt.isSome := by
    intro jb hjb t ht
    obtain ⟨tx, htx, hget⟩ := List.mem_filterMap.mp ht
    obtain ⟨tb, htb, rfl⟩ := Option.map_eq_some_iff.mp hget
    exact h.given tx tb htb (hg.transaction tx (h.added jb hjb tx htx))
  obtain ⟨vb, hvb, hiff⟩ := h.validator
  refine ⟨h.mt_eq, ⟨b.target vb, ?_, hiff, htarget vb (List.mem_of_getElem? hvb)⟩, ?_⟩
  · rw [build, hvb]
    rfl
  · intro job hjob
    obtain ⟨i, hi, hget⟩ := List.mem_filterMap.mp hjob
    obtain ⟨jb, hjb, rfl⟩ := Option.map_eq_some_iff.mp hget
    have hpos : i ≠ 0 := fun h₀ => h.nonzero (h₀ ▸ hi)
    obtain ⟨k, rfl⟩ := Nat.exists_eq_succ_of_ne_zero hpos
    exact ⟨h.jobs k jb hjb, htarget jb (List.mem_of_getElem? hjb)⟩

end TaskBuilder

end Tarantula
