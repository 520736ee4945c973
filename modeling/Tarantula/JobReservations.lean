import Tarantula.JoinCounter
import Tarantula.TaskMoves

/-! The reservations of one job: which of its transactions have confirmed, and which
of these have been asked to finish. -/

namespace Tarantula

/-- Every transaction of job `j` that has reported `CONFIRMED` has been asked to finish. -/
def Settled (dir : Directory) (j : Nat) (log : List Act) : Prop :=
  ∀ id ∈ dir.txs j, reported j id .confirmed log = true → asked j id log = true

instance (dir : Directory) (j : Nat) (log : List Act) : Decidable (Settled dir j log) :=
  inferInstanceAs (Decidable (∀ _ ∈ _, _))

/-- Whenever a task ended, all of its jobs were settled. -/
def EndsSettled (dir : Directory) : List Act → Prop
  | [] => True
  | .ended T :: log => (∀ j ∈ dir.jobs T, Settled dir j log) ∧ EndsSettled dir log
  | _ :: log => EndsSettled dir log

theorem endsSettled_append {dir : Directory} {acts : List Act} (log : List Act)
    (hn : TaskManager.NoEnd acts) : EndsSettled dir (acts ++ log) ↔ EndsSettled dir log := by
  induction acts with
  | nil => rfl
  | cons a acts ih =>
    have hn' : TaskManager.NoEnd acts := fun t h => hn t (List.mem_cons_of_mem _ h)
    cases a with
    | ended t => exact absurd (List.mem_cons_self ..) (hn t)
    | _ => exact ih hn'

theorem Settled.append {dir : Directory} {j : Nat} {log acts : List Act} (h : Settled dir j log)
    (hr : ∀ mt, .received mt ∈ acts → mt.jobId = j → mt.state ≠ .confirmed) :
    Settled dir j (acts ++ log) := by
  intro id hid hrep
  have hold : reported j id .confirmed log = true := by
    obtain ⟨mt, hmem, hj, hi, hs⟩ := reported_iff.mp hrep
    rcases List.mem_append.mp hmem with hmem | hmem
    · exact absurd hs (hr mt hmem hj)
    · exact reported_iff.mpr ⟨mt, hmem, hj, hi, hs⟩
  exact asked_append acts (h id hid hold)

/-- Every transaction of the job has been asked to finish and has. -/
structure Complete (dir : Directory) (k : Nat) (h : List Act) : Prop where
  finished : ∀ id ∈ dir.txs k, reported k id .finished h = true
  decided : decided k h = true

/-- The confirmed reservations of a started job that are not asked to finish are among
the marks of its running join. -/
def Owed (dir : Directory) (k : Nat) (h log : List Act) : Prop :=
  ∀ id ∈ dir.txs k, reported k id .confirmed log = true →
    asked k id log = true ∨ (decided k h = false ∧ reported k id .confirmed h = true)

/-- A job of a task that was not canceled: nothing is finished before all confirmed. -/
structure Confirming (dir : Directory) (k : Nat) (tj : JobResource) (h : List Act) : Prop where
  early : decided k h = false → ∀ id ∈ dir.txs k, reported k id .finished h = false
  confirmed : decided k h = true → ∀ id ∈ dir.txs k, reported k id .confirmed h = true
  counter : decided k h = true → tj.confirmed = reports dir k .finished h

section Moves

variable {dir : Directory} {k : Nat} {mt : Meta} {tj tj' : JobResource} {h h' : List Act}

theorem Complete.append (hc : Complete dir k h) (acts : List Act) : Complete dir k (acts ++ h) :=
  ⟨fun id hid => reported_append acts (hc.finished id hid), decided_append acts hc.decided⟩

theorem asked_of_history {j id : Nat} {log : List Act} (h : asked j id (history j log) = true) :
    asked j id log = true := by
  obtain ⟨mt, hmem, hp⟩ := askedAny_iff.mp h
  exact askedAny_iff.mpr ⟨mt, mem_of_mem_history hmem, hp⟩

theorem Owed.append {log acts : List Act} (ho : Owed dir k (history k log) log)
    (hs : .started k ∉ acts)
    (ha : decided k (history k (acts ++ log)) = true →
      ∀ id ∈ dir.txs k, asked k id (history k (acts ++ log)) = true) :
    Owed dir k (history k (acts ++ log)) (acts ++ log) := by
  intro id hid hrep
  cases hd : decided k (history k (acts ++ log)) with
  | true => exact .inl (asked_of_history (ha hd id hid))
  | false =>
    rw [history_append log hs] at hd ⊢
    have hd₀ : decided k (history k log) = false := by
      rw [Bool.eq_false_iff] at hd ⊢
      exact fun h => hd (decided_append _ h)
    obtain ⟨mt, hmem, hj, hi, hst⟩ := reported_iff.mp hrep
    rcases List.mem_append.mp hmem with hmem | hmem
    · refine .inr ⟨rfl, reported_iff.mpr ⟨mt, ?_, hj, hi, hst⟩⟩
      exact List.mem_append_left _ (List.mem_filter.mpr ⟨hmem, by simp [Act.concerns, hj]⟩)
    · rcases ho id hid (reported_iff.mpr ⟨mt, hmem, hj, hi, hst⟩) with h | ⟨-, h⟩
      · exact .inl (asked_append _ h)
      · exact .inr ⟨rfl, reported_append _ h⟩

theorem Owed.settled {log : List Act} (ho : Owed dir k h log) (hd : decided k h = true) :
    Settled dir k log := by
  intro id hid hrep
  rcases ho id hid hrep with h | ⟨h, -⟩
  · exact h
  · simp [hd] at h

theorem Confirming.same (hc : Confirming dir k tj h) (ht : tj'.confirmed = tj.confirmed)
    (hr : ∀ id st, reported k id st h' = reported k id st h) (ha : decided k h' = decided k h) :
    Confirming dir k tj' h' := by
  refine ⟨?_, ?_, ?_⟩
  · simpa only [ha, hr] using hc.early
  · simpa only [ha, hr] using hc.confirmed
  · simpa only [ha, ht, reports, hr] using hc.counter

/-- Once decided, every transaction has confirmed, so none confirms for the first time. -/
theorem Confirming.undecided (hp : Confirming dir k tj h) {id : Nat} (hid : id ∈ dir.txs k)
    (hfirst : reported k id .confirmed h = false) : decided k h = false := by
  rw [Bool.eq_false_iff]
  intro hd
  simp [hp.confirmed hd id hid] at hfirst

theorem Confirming.move (hp : Confirming dir k tj h) (hc : Counting dir k tj h)
    (hmem : ∀ id : Nat, (tj.joining[id]?).isSome ↔ id ∈ dir.txs k)
    (hlen : tj.joinParties = (dir.txs k).length) (hm : JobMove dir k mt tj h tj' h')
    (hnc : mt.jobId = k → mt.state ≠ .canceled)
    (hf : mt.jobId = k → mt.state = .finished →
      reported k mt.id .finished h = true ∨ decided k h = true) : Confirming dir k tj' h' := by
  cases hm with
  | quiet hs hr => exact hp.same hs.confirmed (fun id st => hr.receivedAny _) (hr.askedAny _)
  | again hk ht hd => exact hp.same rfl (reported_duplicate hk (hc.duplicate ht hd)) rfl
  | @confirm t _ hk ht hs hz _ =>
    have hid := (hmem mt.id).mp (by simp [ht])
    have hfirst := hc.first_confirmed ht hz
    have hd := hp.undecided hid hfirst
    have hother : ∀ id, reported k id .finished (.received mt :: h) = reported k id .finished h :=
      reported_other (by simp [hs])
    have hd' : decided k (.received mt :: h) = false := hd
    refine ⟨fun _ id hid => by rw [hother]; exact hp.early hd id hid, fun hx => ?_, fun hx => ?_⟩
    · simp [hd'] at hx
    · simp [hd'] at hx
  | @confirmLast t _ asks hk ht hs hz hl ha =>
    have hid := (hmem mt.id).mp (by simp [ht])
    have hfirst := hc.first_confirmed ht hz
    have hd := hp.undecided hid hfirst
    have hnone := InPhase.reports_eq_zero (hp.early hd)
    have hd' : decided k ((asks.map Act.askFinish).reverse ++ .received mt :: h) = true := by
      rw [decided, askedAny_append,
        show askedAny _ _ = true from ha.decided (List.ne_nil_of_mem hid), Bool.true_or]
    have hfull : reports dir k .confirmed (.received mt :: h) = (dir.txs k).length := by
      rw [reports_first hk hid hs hfirst, ← hlen, hl, hc.counter hd, hnone]
    refine ⟨fun hx => ?_, fun _ id hid => ?_, fun _ => ?_⟩
    · simp [hd'] at hx
    · rw [reported_asks]
      exact List.countP_eq_length.mp hfull id hid
    · rw [reports_asks, reports_other (by simp [hs]), hnone]
  | @finish t _ hk ht hs hz _ =>
    have hid := (hmem mt.id).mp (by simp [ht])
    have hfirst := hc.first_finished ht hz
    have hd : decided k h = true := (hf hk hs).resolve_left (by simp [hfirst])
    have hd' : decided k (.received mt :: h) = true := hd
    refine ⟨fun hx => by simp [hd'] at hx, fun _ id hid => ?_, fun _ => ?_⟩
    · exact reported_append [_] (hp.confirmed hd id hid)
    · rw [reports_first hk hid hs hfirst, ← hp.counter hd]
      rfl
  | @finishLast t _ hk ht hs hz _ =>
    have hid := (hmem mt.id).mp (by simp [ht])
    have hfirst := hc.first_finished ht hz
    have hd : decided k h = true := (hf hk hs).resolve_left (by simp [hfirst])
    have hd' : decided k (.finished k :: .received mt :: h) = true := hd
    refine ⟨fun hx => by simp [hd'] at hx, fun _ id hid => ?_, fun _ => ?_⟩
    · exact reported_append [_, _] (hp.confirmed hd id hid)
    · have hcount := reports_first hk hid hs hfirst
      rw [← hp.counter hd] at hcount
      simpa [reports, reported, JobResource.count] using hcount.symm
  | cancel hk hs => exact absurd hs (hnc hk)

theorem JobMove.append (hm : JobMove dir k mt tj h tj' h') : ∃ acts, h' = acts ++ h := by
  cases hm with
  | quiet _ hr =>
    rcases hr with rfl | ⟨tc, -, rfl⟩
    · exact ⟨[], rfl⟩
    · exact ⟨[_], rfl⟩
  | again | confirm | finish => exact ⟨[_], rfl⟩
  | finishLast => exact ⟨[_, _], rfl⟩
  | confirmLast | cancel => exact ⟨_ ++ [_], by rw [List.append_assoc]; rfl⟩

theorem Confirming.complete (hp : Confirming dir k tj h) (hk : mt.jobId = k)
    (hid : mt.id ∈ dir.txs k) (hs : mt.state = .finished)
    (hfirst : reported k mt.id .finished h = false) (hd : decided k h = true)
    (hl : (dir.txs k).length = tj.confirmed + 1) : Complete dir k (.received mt :: h) := by
  refine ⟨(InPhase.all_reported_iff hid hk hs hfirst).mpr ?_, hd⟩
  rw [hl, hp.counter hd]

end Moves

end Tarantula
