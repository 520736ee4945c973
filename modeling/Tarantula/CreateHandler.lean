import Tarantula.Decision
import Tarantula.PipelineSteps

/-! The participant that creates the instances of a deployment. Its reserve provisions an instance,
and its cancel removes the instance again, if it can tell which one it was. -/

namespace Tarantula

/-- The mails that `AskReserve` and `AskFinish` send for a transaction whose message in its task is
given by its id. -/
def mailed (message : Nat → Option Bytes) : Act → Option MailTransaction
  | .askReserve tc => some ⟨{ tc with state := .reserving }, message tc.id⟩
  | .askFinish tc => some ⟨tc, none⟩
  | _ => none

namespace Pipeline

section

variable (h : Handler) (w : Body.World Effect Effect.Ans) (t : MailTransaction) (name : String)

/-- The handler has provisioned the instance. -/
def Provisions : Prop := ⟨.provision name, none⟩ ∈ (onTransaction h .create t).run.trace w

/-- The handler has called `Remove` on the instance. -/
def Removes : Prop := ∃ err, ⟨.remove name, err⟩ ∈ (onTransaction h .create t).run.trace w

/-- The message tells the instance, with the keys and the configuration that are loaded. -/
def Tells : Prop := ((Create.prepare h t).run.run w [] []).1 = some (.ok name)

end

def Effect.onMachine : Effect → Bool
  | provision _ | remove _ => true
  | _ => false

def idle : Monitor Effect Effect.Ans Unit := fun _ c _ => if c.onMachine then none else some ()

variable {h : Handler} {w : Body.World Effect Effect.Ans} {t : MailTransaction} {name : String}

theorem not_mem_of_idle {events : List (Body.Event Effect Effect.Ans)}
    (hf : idle.follow () events = some ()) : ∀ e ∈ events, e.1.onMachine = false := by
  induction events with
  | nil => simp
  | cons e events ih =>
    rw [Monitor.follow, List.foldlM_cons] at hf
    obtain ⟨_, hs, hf⟩ := Option.bind_eq_some_iff.mp hf
    refine List.forall_mem_cons.mpr ⟨?_, ih hf⟩
    unfold idle at hs
    split at hs
    · cases hs
    · next he => simpa using he

/-- A part that makes no calls to a machine. -/
def Idle {α : Type} (p : Step α) : Prop :=
  ∀ cs, (∀ c ∈ cs, c.onMachine = false) →
    idle.wp p.run (fun _ _ ds => ∀ c ∈ ds, c.onMachine = false) () cs

section Idle

variable {α β : Type} {p : Step α} {f : α → Step β}

theorem Idle.bind (hp : Idle p) (hf : ∀ a, Idle (f a)) : Idle (p >>= f) := by
  intro cs hcs
  rw [Monitor.wp_run_bind]
  refine (hp cs hcs).mono fun r s ds hds => ?_
  match r with
  | none => exact hds
  | some (.error e) => exact hds
  | some (.ok a) => exact hf a ds hds

theorem idle_pure (a : α) : Idle (pure a : Step α) := fun _ hcs => hcs

theorem idle_throw (e : StepFail) : Idle (throw e : Step α) := fun _ hcs => hcs

theorem idle_ask {c : Effect} (hc : c.onMachine = false) : Idle (ask c) := by
  intro cs hcs
  refine (Monitor.wp_run_lift _).mpr fun x => ⟨(), ?_, hcs⟩
  rw [idle, if_neg (by simp [hc])]

theorem idle_defer {c : Effect} (hc : c.onMachine = false) : Idle (defer c) := by
  intro cs hcs
  exact (Monitor.wp_run_lift _).mpr (List.forall_mem_cons.mpr ⟨hc, hcs⟩)

theorem idle_value {fail : String → StepFail} {r : Except String α} : Idle (value fail r) := by
  cases r with
  | ok a => exact idle_pure a
  | error e => exact idle_throw _

theorem idle_notNil {x : Option α} : Idle (notNil x) := by
  cases x with
  | some a => exact idle_pure a
  | none => exact fun _ hcs => hcs

theorem idle_prepare : Idle (Create.prepare h t) := by
  have hkey : ∀ name, Idle (authKey name) := fun name => (idle_ask rfl).bind fun _ => idle_value
  unfold Create.prepare
  refine Idle.bind ?_ fun plan => Idle.bind ?_ fun cfg => ?_
  · unfold planOf
    split
    · exact idle_throw _
    · exact idle_pure _
  · refine (hkey "git").bind fun key => ?_
    cases plan.deployRepo with
    | none => exact idle_throw _
    | some repo =>
      dsimp only
      split
      · exact idle_throw _
      · refine idle_notNil.bind fun git => (idle_ask rfl).bind fun r => ?_
        exact idle_value.bind fun cfg => idle_pure _
  · refine (hkey _).bind fun key => Idle.bind ?_ fun _ => idle_pure _
    refine (idle_ask rfl).bind fun r => idle_value.bind fun platform => ?_
    exact (idle_defer rfl).bind fun _ => idle_pure _

theorem Idle.run (hp : Idle p) (w : Body.World Effect Effect.Ans) :
    (∀ e ∈ (p.run.run w [] []).2.1, e.1.onMachine = false) ∧
      ∀ c ∈ (p.run.run w [] []).2.2, c.onMachine = false := by
  obtain ⟨_, events, hevents, hfollow, hds⟩ := Monitor.wp_run (hp [] (by simp)) w []
  rw [hevents]
  exact ⟨not_mem_of_idle hfollow, hds⟩

end Idle

theorem run_insert (w : Body.World Effect Effect.Ans) (mt : Meta)
    (past : List (Body.Event Effect Effect.Ans)) (ds : List Effect) :
    ((insert mt).run.run w past ds).2 = (past ++ [⟨.insert mt, w past (.insert mt)⟩], ds) := by
  have hrest : ∀ (r : Except String Nat) (past : List (Body.Event Effect Effect.Ans)),
      ((value .insert r >>= fun rows => if rows = 1 then pure () else throw (.notInserted rows) :
        Step Unit).run.run w past ds).2 = (past, ds) := by
    intro r past
    cases r with
    | error e => rfl
    | ok rows =>
      show ((ite (rows = 1) _ _ : Step Unit).run.run w past ds).2 = _
      split <;> rfl
  exact hrest (w past (.insert mt)) _

section Create

/-- A handler makes the calls of `prepare` and then these. -/
def Calls (h : Handler) (w : Body.World Effect Effect.Ans) (t : MailTransaction) (p : Step Unit)
    (calls : List (Body.Event Effect Effect.Ans)) : Prop :=
  (p.run.run w [] []).2 = (((Create.prepare h t).run.run w [] []).2.1 ++ calls,
    ((Create.prepare h t).run.run w [] []).2.2)

theorem Calls.mem_trace_iff {p : Step Unit} {calls : List (Body.Event Effect Effect.Ans)}
    (hp : Calls h w t p calls) {e : Body.Event Effect Effect.Ans} (he : e.1.onMachine = true) :
    e ∈ p.run.trace w ↔ e ∈ calls := by
  obtain ⟨hpast, hds⟩ := idle_prepare (h := h) (t := t) |>.run w
  obtain ⟨later, htrace, hlater⟩ := p.run.trace_eq w
  rw [Calls] at hp
  rw [hp] at htrace hlater
  have hnot : e ∉ later := by
    intro hm
    have hmem : e.1 ∈ later.map (·.1) := List.mem_map_of_mem hm
    rw [hlater] at hmem
    exact Bool.false_ne_true ((hds _ hmem).symm.trans he)
  have hnot' : e ∉ ((Create.prepare h t).run.run w [] []).2.1 := fun hm =>
    Bool.false_ne_true ((hpast e hm).symm.trans he)
  rw [htrace]
  simp [hnot, hnot']

theorem Calls.exists_remove_iff {p : Step Unit} {calls : List (Body.Event Effect Effect.Ans)}
    (hp : Calls h w t p calls) :
    (∃ err, ⟨.remove name, err⟩ ∈ p.run.trace w) ↔ ∃ err, ⟨.remove name, err⟩ ∈ calls :=
  exists_congr fun _ => hp.mem_trace_iff rfl

theorem removes_iff (hc : t.mt.state = .canceled) : Removes h w t name ↔ Tells h w t name := by
  have htx : onTransaction h .create t = Create.cancel h t := by
    rw [onTransaction, hc]
    rfl
  rw [Removes, Tells, htx]
  match hr : ((Create.prepare h t).run.run w [] []).1 with
  | none =>
    have hcalls : Calls h w t (Create.cancel h t) [] := by
      rw [Calls, Create.cancel, Body.run_lift_bind, Body.run_bind, hr, List.append_nil]
      rfl
    simp [hcalls.exists_remove_iff]
  | some (.error e) =>
    obtain ⟨x, hcalls⟩ : ∃ x, Calls h w t (Create.cancel h t) [⟨.insert t.mt, x⟩] := by
      simp only [Calls, Create.cancel, Body.run_lift_bind, Body.run_bind, hr]
      exact ⟨_, run_insert w t.mt _ _⟩
    simp [hcalls.exists_remove_iff]
  | some (.ok name') =>
    obtain ⟨err, x, hcalls⟩ : ∃ err x, Calls h w t (Create.cancel h t)
        [⟨.remove name', err⟩, ⟨.insert t.mt, x⟩] := by
      simp only [Calls, Create.cancel, Body.run_lift_bind, Body.run_bind, hr]
      exact ⟨_, _, (run_insert w t.mt _ _).trans (by rw [List.append_assoc]; rfl)⟩
    simp [hcalls.exists_remove_iff, eq_comm]

/-- A reserve that knows its instance provisions it, and asks for no machine after that. -/
theorem calls_reserve (hname : ((Create.prepare h t).run.run w [] []).1 = some (.ok name)) :
    ∃ err calls, Calls h w t (Create.reserve h t) (⟨.provision name, err⟩ :: calls) ∧
      ∀ e ∈ calls, e.1.onMachine = false := by
  simp only [Calls, Create.reserve, Body.run_bind_ok w _ hname]
  generalize ((Create.prepare h t).run.run w [] []).2 = made
  obtain ⟨past, ds⟩ := made
  have hprovision : ((ask (.provision name) >>= fun err => check (.provision name) err >>= fun _ =>
      insert t.mt : Step Unit).run.run w past ds) =
    (check (.provision name) (w past (.provision name)) >>= fun _ => insert t.mt : Step Unit).run.run w
      (past ++ [⟨.provision name, w past (.provision name)⟩]) ds := rfl
  rw [hprovision]
  cases w past (.provision name) with
  | some e => exact ⟨some e, [], rfl, by simp⟩
  | none =>
    have hrun := run_insert w t.mt (past ++ [⟨.provision name, none⟩]) ds
    rw [List.append_assoc] at hrun
    exact ⟨none, _, hrun, by simp [Effect.onMachine]⟩

theorem Provisions.tells (hr : t.mt.state = .reserving) (hp : Provisions h w t name) : Tells h w t name := by
  have htx : onTransaction h .create t = Create.reserve h t := by
    rw [onTransaction, hr]
    rfl
  rw [Provisions, htx] at hp
  by_cases hok : ∃ name', ((Create.prepare h t).run.run w [] []).1 = some (.ok name')
  · obtain ⟨name', hname⟩ := hok
    obtain ⟨err, calls, hcalls, hidle⟩ := calls_reserve hname
    rw [hcalls.mem_trace_iff rfl, List.mem_cons] at hp
    rcases hp with he | he
    · obtain rfl : name = name' := by simpa using congrArg Sigma.fst he
      exact hname
    · exact absurd (hidle _ he) (by simp [Effect.onMachine])
  · have hcalls : Calls h w t (Create.reserve h t) [] := by
      rw [Calls, List.append_nil]
      exact Body.run_bind_stop w _ fun name' hname => hok ⟨name', hname⟩
    rw [hcalls.mem_trace_iff rfl] at hp
    cases hp

theorem not_tells_of_message (hm : t.message = none) : ¬ Tells h w t name := by
  rw [Tells, Create.prepare, planOf, hm]
  intro hr
  cases hr

theorem Tells.of_message {t' : MailTransaction} (ht : Tells h w t name) (hm : t'.message = t.message) :
    Tells h w t' name := by
  have hplan : planOf h t' = planOf h t := by rw [planOf, planOf, hm]
  rw [Tells, Create.prepare, hplan]
  exact ht

end Create

end Pipeline

open Pipeline

/-- A reserve has provisioned an instance. The transaction that `AskFinish` sends has no message, so
that its cancel removes no instance, whatever is loaded. Where the keys and the configuration load as
they did, a cancel that tells the instance would remove it, as one with the message of the reserve
does. -/
theorem cancel_removes_nothing {h : Pipeline.Handler} {w : Body.World Effect Effect.Ans}
    {message : Nat → Option Bytes} {tc : Meta} {t : MailTransaction} {name : String}
    (ht : mailed message (.askReserve tc) = some t) (hp : Provisions h w t name) :
    (∀ (tc' : Meta) (t' : MailTransaction), mailed message (.askFinish tc') = some t' →
      tc'.state = .canceled → ∀ w' name', ¬ Removes h w' t' name') ∧
    ∀ t' : MailTransaction, t'.mt.state = .canceled →
      (∀ name', Removes h w t' name' ↔ Tells h w t' name') ∧
      (t'.message = message tc.id → Removes h w t' name) := by
  cases ht
  refine ⟨fun tc' t' ht' hc w' name' hr => ?_, fun t' hc => ⟨fun name' => removes_iff hc, fun hm => ?_⟩⟩
  · cases ht'
    exact not_tells_of_message rfl ((removes_iff hc).mp hr)
  · rw [removes_iff hc]
    exact (hp.tells rfl).of_message hm

section Sample

def samplePlan : PlanObject := ⟨"gcp", "dev", none, some ⟨"deploy", "", "main"⟩, "", 0⟩

def sampleHandler : Pipeline.Handler :=
  ⟨"gcp", ⟨"vault", "token"⟩, fun _ => some samplePlan, id, fun pattern _ => pattern⟩

def sampleWorld : Body.World Effect Effect.Ans :=
  obliging ⟨{("default", ⟨[], .empty, { Core.PhaseConfig.empty with namePrefix := "web" }, .empty⟩)}⟩
    fun _ => none

def sampleMessage (_ : Nat) : Option Bytes := some [1]

theorem sampleHandler_provisions :
    Provisions sampleHandler sampleWorld ⟨sampleMeta 2 4 .reserving, sampleMessage 4⟩ "web-01" :=
  List.mem_of_getElem? (i := 4) rfl

theorem cancel_removes_sample :
    Provisions sampleHandler sampleWorld ⟨sampleMeta 2 4 .reserving, sampleMessage 4⟩ "web-01" ∧
      ¬ Removes sampleHandler sampleWorld ⟨sampleMeta 2 4 .canceled, none⟩ "web-01" ∧
      Removes sampleHandler sampleWorld ⟨sampleMeta 2 4 .canceled, sampleMessage 4⟩ "web-01" := by
  have hsent : mailed sampleMessage (.askReserve (sampleMeta 2 4 .reserving)) =
      some ⟨sampleMeta 2 4 .reserving, sampleMessage 4⟩ := rfl
  obtain ⟨hnothing, hmessage⟩ := cancel_removes_nothing hsent sampleHandler_provisions
  exact ⟨sampleHandler_provisions, hnothing (sampleMeta 2 4 .canceled) _ rfl rfl sampleWorld "web-01",
    (hmessage _ rfl).2 rfl⟩

/-- The reserve of transaction 3 fails, while that of transaction 4 provisions the instance `web-01`.
The coordinator cancels both, and the cancel of transaction 4 succeeds without a call of `Remove`. -/
theorem canceled_create_leaves_instance :
    ∃ s, Reaches System.step (System.Possible sampleDirectory) System.initial s ∧
      ∃ tc tc', .askReserve tc ∈ s.tm.log ∧ .askFinish tc' ∈ s.tm.log ∧ tc'.id = tc.id ∧
        tc'.state = .canceled ∧
        ∃ t t', mailed sampleMessage (.askReserve tc) = some t ∧
          mailed sampleMessage (.askFinish tc') = some t' ∧
          Provisions sampleHandler sampleWorld t "web-01" ∧
          ¬ Removes sampleHandler sampleWorld t' "web-01" ∧
          (onTransaction sampleHandler .create t').run.result sampleWorld = some (.ok ()) := by
  obtain ⟨s, hs, hres, hfin⟩ := exists_reaches_of_checkedRun System.step (System.Possible sampleDirectory)
    (fun s => .askReserve (sampleMeta 2 4 .reserving) ∈ s.tm.log ∧
      .askFinish (sampleMeta 2 4 .canceled) ∈ s.tm.log) System.initial
    [.event (.task sampleTask), .event (.job 0),
      .answer (.askReserve (sampleMeta 2 3 .reserving)) "" "" (some ""),
      .answer (.askReserve (sampleMeta 2 4 .reserving)) "" "" none,
      .event (.update (sampleMeta 2 3 .canceled) none)] (by decide)
  refine ⟨s, hs, _, _, hres, hfin, rfl, rfl, _, _, rfl, rfl, sampleHandler_provisions, fun hr => ?_, rfl⟩
  exact not_tells_of_message rfl ((removes_iff rfl).mp hr)

end Sample

end Tarantula
