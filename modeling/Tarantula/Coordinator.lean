import Tarantula.Channel
import Tarantula.Decision
import Tarantula.EndOfTask
import Tarantula.TimerWheel

/-! The coordinator with what runs beside its loop: the timers, the goroutines of `schedule`
and `end`, and the channels `updates` and `jobs`, which hold ten messages each. Timers and
goroutines do not wait for room; what they cannot send is dropped. -/

namespace Tarantula

/-- A message in `updates`, with the number of the timer that has sent it. -/
structure Notice where
  timer : Option Nat
  mt : Meta
  deriving DecidableEq, Repr

def chanCap : Nat := 10

/-- The first `sent` of the jobs of `tm` are in the channel `jobs`, the others wait in the
goroutines of `schedule`. `saving` are the ended tasks whose `updateTask` has not returned. -/
structure Coordinator where
  tm : TaskManager
  wheel : Wheel Nat Meta
  updates : Chan Notice
  sent : Nat
  saving : List Nat

inductive CoordinatorEvent
  | fire (i : Nat)
  | report (mt : Meta)
  | saved (i : Nat)
  | send (i : Nat)
  | task (task : Task)
  | recovery (taskId : Nat) (loaded : Option (Task × Nat))
  | job
  | update (loaded : Option (Task × Nat))

namespace TaskManager

def taskOf (m : TaskManager) (k : Nat) : Nat :=
  match m.tjs[k]? with
  | none => 0
  | some j => (m.heap j.resource).mt.taskId

def idsOf (m : TaskManager) (k : Nat) : List Nat :=
  match m.tjs[k]? with
  | none => []
  | some j => (m.heap j.resource).ids

def timerMeta (m : TaskManager) (k id : Nat) (st : TccState) : Meta :=
  { (default : Meta) with taskId := m.taskOf k, jobId := k, id := id, state := st }

/-- The event of the timer that goes with a request: `timeout` sends the event it has received
once more, `start`, `confirmed` and `canceled` make a new one. -/
def askMeta (m : TaskManager) (e : Event) (tc : Meta) : Meta :=
  match e with
  | .update mt _ =>
    if mt.state = .transactionTimeout ∧ mt.id = tc.id then mt
    else m.timerMeta tc.jobId tc.id .transactionTimeout
  | _ => m.timerMeta tc.jobId tc.id .transactionTimeout

/-- What is done to the timers in an iteration, told by its acts: a start arms the timer of the
job, a request arms the one of its transaction, and reports, decisions and ends close timers.
`m` is the state after the iteration. -/
def timerOps (m : TaskManager) (e : Event) : Act → List (TimerOp Nat Meta)
  | .started k => [.arm (m.timerMeta k 0 .jobTimeout)]
  | .askReserve tc | .askFinish tc => [.arm (m.askMeta e tc)]
  | .received mt => [.close mt.id]
  | .finished k => [.close k]
  | .canceled k | .stopped k => (m.idsOf k).map .close
  | .confirmed _ | .ended _ | .updateTask _ => []

end TaskManager

def Act.endedTask : Act → Option Nat
  | .ended T => some T
  | _ => none

namespace Coordinator

def empty : Coordinator := ⟨.empty, .empty, .make chanCap, 0, []⟩

def acts (c : Coordinator) (m : TaskManager) : List Act := (c.tm.acts m).reverse

/-- `timeout` deletes an entry that does not resend, without stopping its timer. -/
def expire (m : TaskManager) (wheel : Wheel Nat Meta) : Event → Wheel Nat Meta
  | .update mt _ => if (m.tms[mt.timerKey]?).isNone then wheel.forget mt.timerKey else wheel
  | _ => wheel

/-- The coordinator after an iteration that has turned its task manager into `m`. -/
def follow (c : Coordinator) (e : Event) (m : TaskManager) : Coordinator :=
  { c with
    tm := m
    wheel := expire m (c.wheel.run Meta.timerKey ((c.acts m).flatMap (m.timerOps e))) e
    saving := c.saving ++ (c.acts m).filterMap Act.endedTask }

def iterate (c : Coordinator) (e : Event) : Option Coordinator := (c.tm.wait e).map (c.follow e)

def sendJob (c : Coordinator) (i : Nat) : Option Coordinator :=
  match c.tm.jobs[c.sent + i]? with
  | none => none
  | some ref =>
    let rest := c.tm.jobs.eraseIdx (c.sent + i)
    if c.sent < chanCap then
      some { c with tm := { c.tm with jobs := rest.insertIdx c.sent ref }, sent := c.sent + 1 }
    else some { c with tm := { c.tm with jobs := rest } }

/-- One step of the coordinator or of what runs beside it; `none` where it cannot be taken. -/
def step (c : Coordinator) : CoordinatorEvent → Option Coordinator
  | .fire i =>
    match c.wheel.running[i]? with
    | none => none
    | some (n, mt) => some { c with wheel := c.wheel.fire i, updates := c.updates.offer ⟨some n, mt⟩ }
  | .report mt =>
    match c.updates.send ⟨none, mt⟩ with
    | .sent updates => some { c with updates := updates }
    | _ => none
  | .saved i =>
    match c.saving[i]? with
    | none => none
    | some T =>
      let mt : Meta := { (default : Meta) with id := T, state := .taskClear }
      some { c with saving := c.saving.eraseIdx i, updates := c.updates.offer ⟨none, mt⟩ }
  | .send i => c.sendJob i
  | .task task => c.iterate (.task task)
  | .recovery taskId loaded => c.iterate (.recovery taskId loaded)
  | .job => if 0 < c.sent then { c with sent := c.sent - 1 }.iterate (.job 0) else none
  | .update loaded =>
    match c.updates.receive with
    | some (some q, updates) => { c with updates := updates }.iterate (.update q.mt loaded)
    | _ => none

def iteration (c : Coordinator) : CoordinatorEvent → Option Event
  | .task task => some (.task task)
  | .recovery taskId loaded => some (.recovery taskId loaded)
  | .job => some (.job 0)
  | .update loaded => c.updates.buf.head?.map fun q => .update q.mt loaded
  | _ => none

/-- Participants send reports, and the loop receives genuine events. -/
def Legal (dir : Directory) (c : Coordinator) (e : CoordinatorEvent) : Prop :=
  (∀ b ∈ c.iteration e, b.Genuine dir c.tm) ∧
    match e with
    | .report mt => System.isReport mt = true
    | _ => True

instance (dir : Directory) (c : Coordinator) (e : CoordinatorEvent) : Decidable (Legal dir c e) :=
  match e with
  | .report _ => inferInstanceAs (Decidable (_ ∧ _ = true))
  | .fire _ | .saved _ | .send _ | .task _ | .recovery _ _ | .job | .update _ =>
    inferInstanceAs (Decidable (_ ∧ True))

end Coordinator

end Tarantula
