import Tarantula.Postoffice
import Tarantula.Runs

/-! The postoffices of a cluster, the streams of their workers, and the requests on the way
between them. Workers subscribe at a postoffice, which tells all members; a postoffice sends its
own subscriptions to the others when a node joins; when a stream ends, all members are told to
forget the subscriptions of its node. -/

namespace Tarantula

structure Receiving where
  office : String
  nodeId : String
  stream : Nat
  deriving DecidableEq, Repr

abbrev Message := String × OfficeRequest

/-- The postoffices are known by their endpoints. `flight` are the messages that the goroutine of
their postoffice has not taken. The other fields are a record for the proofs: the messages that
were sent, those that were served, with the last one first, the transactions with the NodeId that
`runAskReserve` gave them, and the mails that came into the channel of a worker. -/
structure Postal where
  offices : String → Dispatcher
  streams : List Receiving
  flight : List Message
  sent : List Message
  served : List Message
  reserved : List Meta
  posted : List (String × String × Mail)

/-- `members` are the endpoints of the members that the postoffice knows, its own among them. -/
inductive PostalEvent
  | subscribe (office : String) (sub : Subscription) (members : List String)
  | unsubscribe (office : String) (sub : Subscription) (members : List String)
  | receive (office nodeId : String)
  | hangUp (stream : Receiving) (members : List String)
  | lost (stream : Receiving) (members : List String)
  | read (stream : Receiving)
  | nodeAdded (office : String)
  | nodeRemoved (office rpcEndpoint : String)
  | askReserve (office : String) (mt : Meta) (range : RangeOrder)
  | askFinish (office : String) (mt : Meta) (range : RangeOrder)
  | publish (office name : String)
  | deliver (i : Nat) (members : List String)
  | drop (i : Nat)

section Proxies

variable (members : List String)

def runRegister (sub : Subscription) : List Message :=
  members.map (·, .register { sub with deleting := false })

def runUnregister (sub : Subscription) : List Message :=
  members.map (·, .register { sub with deleting := true })

def runRemoveSubByNodeId (nodeId : String) : List Message :=
  members.map (·, .removeSubs nodeId)

/-- The postoffice itself is left out. -/
def runSyncSubs (own : String) (subs : List Subscription) : List Message :=
  (members.filter (· ≠ own)).flatMap fun m => subs.map fun sub =>
    (m, .register { sub with deleting := false })

end Proxies

namespace Outgoing

def messages (members : List String) (own : String) : Outgoing → List Message
  | .sync subs => runSyncSubs members own subs
  | .disconnect target nodeId => [(target, .receiverEnd nodeId)]
  | _ => []

def receiving (own : String) : Outgoing → Option Receiving
  | .started name stream => some ⟨own, name, stream⟩
  | _ => none

def mailed (own : String) : Outgoing → Option (String × String × Mail)
  | .posted name mail => some (own, name, mail)
  | _ => none

end Outgoing

theorem mem_released {pools : List RpcConnPool} {members : List String} {own : String} {m : Message} :
    m ∈ (pools.flatMap (·.release)).flatMap (·.messages members own) ↔
      ∃ pool ∈ pools, pool.live = true ∧ m = (pool.target, .receiverEnd pool.nodeId) := by
  simp only [List.mem_flatMap]
  constructor
  · rintro ⟨o, ⟨pool, hpool, ho⟩, hm⟩
    unfold RpcConnPool.release at ho
    split at ho
    · next hlive =>
      cases List.mem_singleton.mp ho
      exact ⟨pool, hpool, hlive, List.mem_singleton.mp hm⟩
    · cases ho
  · rintro ⟨pool, hpool, hlive, rfl⟩
    refine ⟨.disconnect pool.target pool.nodeId, ⟨pool, hpool, ?_⟩, List.mem_singleton.mpr rfl⟩
    unfold RpcConnPool.release
    rw [if_pos hlive]
    exact List.mem_singleton.mpr rfl

namespace Postal

def start : Postal := ⟨fun _ => .start, [], [], [], [], [], []⟩

def send (c : Postal) (msgs : List Message) : Postal :=
  { c with flight := c.flight ++ msgs, sent := c.sent ++ msgs }

def setOffice (c : Postal) (e : String) (d : Dispatcher) : Postal :=
  { c with offices := fun e' => if e' = e then d else c.offices e' }

def channels (c : Postal) (s : Receiving) : Option ReceiverAsync :=
  (c.offices s.office).listeners[s.nodeId]?.filter (·.stream = s.stream)

def ended (c : Postal) (s : Receiving) (members : List String) : Postal :=
  { c with streams := c.streams.filter (· ≠ s) }.send (runRemoveSubByNodeId members s.nodeId)

/-- `Subscribe` and `Unsubscribe` put the endpoint of their postoffice. A step fails where a
goroutine waits. -/
def step (c : Postal) : PostalEvent → Option Postal
  | .subscribe office sub members => some (c.send (runRegister members { sub with endpoint := office }))
  | .unsubscribe office sub members =>
    some (c.send (runUnregister members { sub with endpoint := office }))
  | .receive office nodeId => some (c.send [(office, .receiverStart nodeId)])
  | .hangUp s members =>
    if s ∈ c.streams then
      (c.channels s).bind fun ch => ch.q.receive.map fun (_, q) =>
        (c.setOffice s.office ((c.offices s.office).listen s.nodeId { ch with q })).ended s members
    else none
  | .lost s members => if s ∈ c.streams then some (c.ended s members) else none
  | .read s =>
    if s ∈ c.streams then
      (c.channels s).bind fun ch => ch.rev.receive.map fun (_, rev) =>
        c.setOffice s.office ((c.offices s.office).listen s.nodeId { ch with rev })
    else none
  | .nodeAdded office => some (c.send [(office, .nodeAdded)])
  | .nodeRemoved office rpcEndpoint => some (c.send [(office, .nodeRemoved rpcEndpoint)])
  | .askReserve office mt range =>
    let (d, sub) := (c.offices office).taskAssign range "" mt.tag mt.name
    match sub with
    | none => some (c.setOffice office d)
    | some sub =>
      some ({ c.setOffice office (d.conn sub.topicKey) with
        reserved := c.reserved ++ [{ mt with nodeId := sub.nodeId }] }.send
          [(sub.endpoint, .mail (.trans { mt with state := .reserving }))])
  | .askFinish office mt range =>
    let (d, sub) := (c.offices office).taskAssign range mt.nodeId mt.tag mt.name
    match sub with
    | none => some (c.setOffice office d)
    | some sub =>
      some ((c.setOffice office (if sub.endpoint = office then d else d.conn sub.topicKey)).send
        [(sub.endpoint, .mail (.trans mt))])
  | .publish office name =>
    let keys := (c.offices office).topic name
    some ((c.setOffice office (keys.foldl Dispatcher.conn (c.offices office))).send
      (keys.map fun k => (k.endpoint, .mail (.topic name))))
  | .deliver i members =>
    c.flight[i]?.bind fun (e, req) => ((c.offices e).serve e req).map fun (d, out) =>
      { c.setOffice e d with
        streams := c.streams ++ out.filterMap (·.receiving e)
        flight := c.flight.eraseIdx i ++ out.flatMap (·.messages members e)
        sent := c.sent ++ out.flatMap (·.messages members e)
        served := (e, req) :: c.served
        posted := c.posted ++ out.filterMap (·.mailed e) }
  | .drop i => if i < c.flight.length then some { c with flight := c.flight.eraseIdx i } else none

variable {c c' : Postal} {s : Receiving} {i : Nat} {members : List String}

theorem deliver_cases (h : c.step (.deliver i members) = some c') :
    ∃ e req d out, c.flight[i]? = some (e, req) ∧ (c.offices e).serve e req = some (d, out) ∧
      c' = { c.setOffice e d with
        streams := c.streams ++ out.filterMap (·.receiving e)
        flight := c.flight.eraseIdx i ++ out.flatMap (·.messages members e)
        sent := c.sent ++ out.flatMap (·.messages members e)
        served := (e, req) :: c.served
        posted := c.posted ++ out.filterMap (·.mailed e) } := by
  obtain ⟨⟨e, req⟩, hi, h⟩ := Option.bind_eq_some_iff.mp h
  obtain ⟨⟨d, out⟩, hd, rfl⟩ := Option.map_eq_some_iff.mp h
  exact ⟨e, req, d, out, hi, hd, rfl⟩

theorem hangUp_cases (h : c.step (.hangUp s members) = some c') :
    s ∈ c.streams ∧ ∃ ch x q, c.channels s = some ch ∧ ch.q.receive = some (x, q) ∧
      c' = (c.setOffice s.office ((c.offices s.office).listen s.nodeId { ch with q })).ended s members := by
  unfold step at h
  dsimp only at h
  split at h
  · next hs =>
    obtain ⟨ch, hch, h⟩ := Option.bind_eq_some_iff.mp h
    obtain ⟨⟨x, q⟩, hq, rfl⟩ := Option.map_eq_some_iff.mp h
    exact ⟨hs, ch, x, q, hch, hq, rfl⟩
  · cases h

theorem read_cases (h : c.step (.read s) = some c') :
    ∃ ch rev, c.channels s = some ch ∧
      c' = c.setOffice s.office ((c.offices s.office).listen s.nodeId { ch with rev }) := by
  unfold step at h
  dsimp only at h
  split at h
  · obtain ⟨ch, hch, h⟩ := Option.bind_eq_some_iff.mp h
    obtain ⟨⟨_, rev⟩, -, rfl⟩ := Option.map_eq_some_iff.mp h
    exact ⟨ch, rev, hch, rfl⟩
  · cases h

end Postal

end Tarantula
