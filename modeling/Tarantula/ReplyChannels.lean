import Tarantula.Channel
import Tarantula.DataService
import Tarantula.Runs

/-! The lookups that the handlers and the proxies of a postoffice make, and the loop of
`RingUpdated` that answers them. A lookup is the life of one reply channel: it is made,
requests that carry it are queued, and it is closed on the way out. What the ring and the
subscriptions answer is arbitrary here. -/

namespace Tarantula

inductive RingOpt
  | replica | all
  deriving DecidableEq, Repr

inductive TopicOpt
  | receiverStart | topicRegister | receiverRemove | receiverEnd | taskRegister
  | topicList | taskList | taskAssign
  deriving DecidableEq, Repr

/-- Reply channels are known by the number of their lookup. -/
structure RingRequest where
  opt : RingOpt
  token : UInt32
  replicas : Nat
  async : Nat
  deriving DecidableEq, Repr

structure TopicRequest where
  opt : TopicOpt
  nodeId : String
  tag : String
  name : String
  async : Option Nat
  subs : Option Nat
  deriving DecidableEq, Repr

/-- The loop replies to this request, on the channel `replyTo`. -/
def TopicRequest.replies (req : TopicRequest) : Bool :=
  match req.opt with
  | .receiverEnd | .receiverRemove => false
  | _ => true

def TopicRequest.replyTo (req : TopicRequest) : Option Nat :=
  match req.opt with
  | .receiverStart => req.async
  | .receiverEnd | .receiverRemove => none
  | _ => req.subs

/-- The callers of `keyRing` that ask for `REPLICA_MAX` nodes. -/
inductive Proxy
  | runGet | runCreate | runUpdate | runDelete | runReset | runQuery
  | runFinished | runConfirmed | runCanceled | runSetup | isLocalRingOwner
  deriving DecidableEq, Repr

/-- A round of `runAskReserve` makes a channel of its own, so it is a lookup. -/
inductive Lookup
  | hashRing
  | keyRing (ringPrefix : UInt32)
  | topicList
  | taskList
  | receive (nodeId : String)
  | proxy (p : Proxy) (token : UInt32)
  | runAskReserve (tag name : String)
  | runAskFinish (tag name nodeId : String)
  | runPublish (nodeId tag name : String)
  deriving DecidableEq, Repr

namespace Lookup

def cap : Lookup → Nat
  | hashRing | keyRing _ => 1
  | receive _ => 2
  | _ => 3

def tries : Lookup → Nat
  | proxy .runCreate _ | proxy .runUpdate _ | proxy .runDelete _ | proxy .runReset _ => retryMax
  | _ => 1

def request (l : Lookup) (rq : Nat) : RingRequest ⊕ TopicRequest :=
  match l with
  | hashRing => .inl ⟨.all, 0, 0, rq⟩
  | keyRing ringPrefix => .inl ⟨.replica, ringPrefix, 0, rq⟩
  | proxy _ token => .inl ⟨.replica, token, replicaMax, rq⟩
  | topicList => .inr ⟨.topicList, "", "", "", none, some rq⟩
  | taskList => .inr ⟨.taskList, "", "", "", none, some rq⟩
  | receive nodeId => .inr ⟨.receiverStart, "", "", nodeId, some rq, none⟩
  | runAskReserve tag name => .inr ⟨.taskAssign, "", tag, name, none, some rq⟩
  | runAskFinish tag name nodeId => .inr ⟨.taskAssign, nodeId, tag, name, none, some rq⟩
  | runPublish nodeId tag name => .inr ⟨.topicRegister, nodeId, tag, name, none, some rq⟩

/-- `ctx.Done` is an alternative to the send of the request. -/
def doneWhileSending : Lookup → Bool
  | topicList | taskList | receive _ => true
  | _ => false

/-- `ctx.Done` is an alternative to the receipt of the reply. -/
def doneWhileWaiting : Lookup → Bool
  | hashRing | topicList | taskList | receive _ => true
  | _ => false

/-- The reply channel is closed also on a return through `ctx.Done`. -/
def defersClose : Lookup → Bool
  | receive _ => false
  | _ => true

end Lookup

/-- The number is that of the requests a lookup may still make. -/
inductive LookupPhase
  | sending (tries : Nat) | waiting (tries : Nat) | working (tries : Nat)
  | returning | ended
  deriving DecidableEq, Repr

structure Requester (α : Type) where
  lookup : Lookup
  phase : LookupPhase
  rq : Chan α
  deriving DecidableEq, Repr

/-- The loop of `RingUpdated`. A reply on a nil channel waits for ever. -/
inductive RingLoop
  | selecting | replying (rq : Option Nat) | panicked (rq : Nat) | stopped
  deriving DecidableEq, Repr

structure Postoffice (α : Type) where
  mRequest : Chan RingRequest
  dRequest : Chan TopicRequest
  requesters : List (Requester α)
  loop : RingLoop
  deriving DecidableEq, Repr

/-- `done` is the `ctx.Done` branch of a select. -/
inductive LookupAct
  | enqueue | done | receive | again | leave | close
  deriving DecidableEq, Repr

/-- `begin` makes a reply channel; `closeRing` and `closeTopic` are parts of the shutdown. -/
inductive LookupEvent (α : Type)
  | begin (l : Lookup)
  | act (i : Nat) (a : LookupAct)
  | disconnect (nodeId : String)
  | takeRing
  | takeTopic
  | reply (x : α)
  | closeRing
  | closeTopic
  deriving DecidableEq, Repr

namespace Postoffice

variable {α : Type}

def initial : Postoffice α :=
  ⟨.make nodeEventBufferSize, .make nodeEventBufferSize, [], .selecting⟩

def setRequester (s : Postoffice α) (i : Nat) (r : Requester α) : Postoffice α :=
  { s with requesters := s.requesters.set i r }

/-- `none` where the send waits, or panics since the postoffice shuts down. -/
def enqueue (s : Postoffice α) : RingRequest ⊕ TopicRequest → Option (Postoffice α)
  | .inl q =>
    match s.mRequest.send q with
    | .sent c => some { s with mRequest := c }
    | _ => none
  | .inr q =>
    match s.dRequest.send q with
    | .sent c => some { s with dRequest := c }
    | _ => none

/-- A step of the `i`-th requester `r`. -/
def act (s : Postoffice α) (i : Nat) (r : Requester α) : LookupAct → Option (Postoffice α)
  | .enqueue =>
    match r.phase with
    | .sending (n + 1) =>
      (s.enqueue (r.lookup.request i)).map (·.setRequester i { r with phase := .waiting n })
    | _ => none
  | .done =>
    let gone : Requester α := { r with phase := if r.lookup.defersClose then .returning else .ended }
    match r.phase with
    | .sending _ => if r.lookup.doneWhileSending then some (s.setRequester i gone) else none
    | .waiting _ => if r.lookup.doneWhileWaiting then some (s.setRequester i gone) else none
    | _ => none
  | .receive =>
    match r.phase with
    | .waiting n => r.rq.receive.map fun p => s.setRequester i { r with phase := .working n, rq := p.2 }
    | _ => none
  | .again =>
    match r.phase with
    | .working (n + 1) => some (s.setRequester i { r with phase := .sending (n + 1) })
    | _ => none
  | .leave =>
    match r.phase with
    | .working _ => some (s.setRequester i { r with phase := .returning })
    | _ => none
  | .close =>
    match r.phase with
    | .returning => r.rq.close.map fun c => s.setRequester i { r with phase := .ended, rq := c }
    | _ => none

def takeRing (s : Postoffice α) : Option (Postoffice α) :=
  match s.loop, s.mRequest.receive with
  | .selecting, some (some q, c) => some { s with mRequest := c, loop := .replying (some q.async) }
  | .selecting, some (none, _) => some { s with loop := .stopped }
  | _, _ => none

def takeTopic (s : Postoffice α) : Option (Postoffice α) :=
  match s.loop, s.dRequest.receive with
  | .selecting, some (some q, c) =>
    some { s with dRequest := c, loop := if q.replies then .replying q.replyTo else .selecting }
  | .selecting, some (none, _) => some { s with loop := .stopped }
  | _, _ => none

def reply (s : Postoffice α) (x : α) : Option (Postoffice α) :=
  match s.loop with
  | .replying (some i) =>
    s.requesters[i]?.bind fun r =>
      match r.rq.send x with
      | .panics => some { s with loop := .panicked i }
      | .blocks => none
      | .sent c => some { s.setRequester i { r with rq := c } with loop := .selecting }
  | _ => none

def step (s : Postoffice α) : LookupEvent α → Option (Postoffice α)
  | .begin l => some { s with requesters := s.requesters ++ [⟨l, .sending l.tries, .make l.cap⟩] }
  | .act i a => s.requesters[i]?.bind (s.act i · a)
  | .disconnect nodeId => s.enqueue (.inr ⟨.receiverEnd, "", "", nodeId, none, none⟩)
  | .takeRing => s.takeRing
  | .takeTopic => s.takeTopic
  | .reply x => s.reply x
  | .closeRing => s.mRequest.close.map fun c => { s with mRequest := c }
  | .closeTopic => s.dRequest.close.map fun c => { s with dRequest := c }

def queued (s : Postoffice α) : List Nat :=
  s.mRequest.buf.map (·.async) ++ s.dRequest.buf.filterMap (·.replyTo)

def pending (s : Postoffice α) : List Nat :=
  s.queued ++ match s.loop with
    | .replying rq => rq.toList
    | _ => []

end Postoffice

end Tarantula
