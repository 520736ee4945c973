import Tarantula.MailRoom

/-! The goroutine `RingUpdated` of a postoffice. It owns the subscriptions that it routes by
and the mail room, and serves one request after the other. -/

namespace Tarantula

/-- `backNum` is the number of hosts of the back ring. -/
structure Dispatcher extends MailRoom where
  backNum : Int
  subscriptions : SubscriptionRegistry
  keyed : subscriptions.Keyed
  pooled : toMailRoom.Pooled

/-- What a request makes the goroutine send or answer: a snapshot for `runSyncSubs`, a
`Disconnect` over the connection of a released pool, the channels for a `Receive`, and a mail
into the channel of a worker. -/
inductive Outgoing
  | sync (subs : List Subscription)
  | disconnect (target nodeId : String)
  | started (name : String) (stream : Nat)
  | posted (name : String) (mail : Mail)
  deriving DecidableEq, Repr

def RpcConnPool.release (p : RpcConnPool) : List Outgoing :=
  if p.live then [.disconnect p.target p.nodeId] else []

/-- The mail, if the channel has room for it. -/
def ReceiverAsync.posts (ch : ReceiverAsync) (nk : String) (mail : Mail) : List Outgoing :=
  match ch.rev.send mail with
  | .sent _ => [.posted nk mail]
  | _ => []

theorem ReceiverAsync.posts_eq (ch : ReceiverAsync) (nk : String) (mail : Mail) : ch.posts nk mail =
    if (!ch.rev.closed && ch.rev.buf.length < ch.rev.cap) = true then [.posted nk mail] else [] := by
  unfold posts
  split
  · next rev hs => rw [if_pos (Chan.send_sent_iff.mp ⟨rev, hs⟩)]
  · next hs =>
    rw [if_neg]
    rw [← Chan.send_sent_iff (x := mail)]
    rintro ⟨rev, hrev⟩
    exact hs rev hrev

theorem ReceiverAsync.node_of_posts {ch : ReceiverAsync} {n nk : String} {mail mail' : Mail}
    (h : .posted n mail' ∈ ch.posts nk mail) : n = nk := by
  rw [posts_eq] at h
  split at h
  · cases List.mem_singleton.mp h
    rfl
  · cases h

namespace Dispatcher

def start : Dispatcher := ⟨.empty, 0, .empty, .empty, .empty⟩

def withRoom (d : Dispatcher) (m : MailRoom) (h : m.Pooled) : Dispatcher :=
  { d with toMailRoom := m, pooled := h }

def listen (d : Dispatcher) (name : String) (ch : ReceiverAsync) : Dispatcher :=
  d.withRoom (d.toMailRoom.listen name ch) (d.pooled.listen name ch)

theorem listen_room (d : Dispatcher) (name : String) (ch : ReceiverAsync) :
    (d.listen name ch).toMailRoom = d.toMailRoom.listen name ch := rfl

/-- `del` for each subscription with `p`. -/
def drop (d : Dispatcher) (p : Subscription → Bool) : Dispatcher × List Outgoing :=
  ({ d with subscriptions := (d.subscriptions.delWhere p).1, keyed := d.keyed.delEach _ },
    (d.subscriptions.delWhere p).2.flatMap (·.release))

def removeSubsByNodeId (d : Dispatcher) (nodeId : String) : Dispatcher × List Outgoing :=
  d.drop (·.nodeId = nodeId)

def balanceOnNodeRemoved (d : Dispatcher) (rpcEndpoint : String) : Dispatcher × List Outgoing :=
  { d with backNum := d.backNum - 1 }.drop (·.endpoint = rpcEndpoint)

section Local

variable (rpcEndpoint : String)

def registerSubscription (d : Dispatcher) (sub : Subscription) : Dispatcher × List Outgoing :=
  let d := d.withRoom (d.toMailRoom.registerSubscription rpcEndpoint sub)
    (d.pooled.registerSubscription rpcEndpoint sub)
  let sub := sub.routed
  if sub.deleting then
    ({ d with subscriptions := (d.subscriptions.del sub).1, keyed := d.keyed.del sub },
      ((d.subscriptions.del sub).2.toList).flatMap (·.release))
  else ({ d with subscriptions := d.subscriptions.add sub, keyed := d.keyed.add sub }, [])

/-- The snapshot has the subscriptions of the workers that are connected here. -/
def balanceOnNodeAdded (d : Dispatcher) : Dispatcher × List Outgoing :=
  ({ d with backNum := d.backNum + 1 },
    if d.backNum = 0 then []
    else
      match d.subscriptions.subs.filter (·.endpoint = rpcEndpoint) with
      | [] => []
      | subs => [.sync subs])

end Local

def receiverStart (d : Dispatcher) (name : String) : Dispatcher × List Outgoing :=
  (d.withRoom (d.toMailRoom.receiverStart name) (d.pooled.receiverStart name),
    [.started name (d.streams + 1)])

def receiverEnd (d : Dispatcher) (name : String) : Option Dispatcher :=
  (d.toMailRoom.receiverEnd name).pmap d.withRoom fun _ h => d.pooled.receiverEnd h

def topicMail (d : Dispatcher) (name : String) : Dispatcher × List Outgoing :=
  (d.withRoom (d.toMailRoom.topicMail name) (d.pooled.topicMail name),
    d.listeners.toList.flatMap fun x => if name ∈ x.2.subs then x.2.posts x.1 (.topic name) else [])

/-- By `MailRoom.transMail_eq` the loop ends, and this is the room after it. -/
def transMail (d : Dispatcher) (mt : Meta) : Dispatcher × List Outgoing :=
  let r := MailRoom.transLoop d.listeners (transSubPrefix ++ mt.name) d.listenerPool [] ""
  (d.withRoom (d.transPost mt r) (d.pooled.transPost mt _),
    match r.2 with
    | none => []
    | some (nk, nc) => nc.posts nk (.trans mt))

def taskAssign (range : RangeOrder) (d : Dispatcher) (nodeId tag name : String) :
    Dispatcher × Option Subscription :=
  let name := transSubPrefix ++ name
  match if nodeId ≠ "" then d.subscriptions.pickByNodeId range name nodeId else none with
  | some sub => (d, some sub)
  | none =>
    ({ d with
       subscriptions := (d.subscriptions.pick range name tag).1
       keyed := d.keyed.pick range name tag }, (d.subscriptions.pick range name tag).2)

/-- `Conn` by a goroutine that was given the pool of an entry. -/
def conn (d : Dispatcher) (k : TopicKey) : Dispatcher :=
  { d with subscriptions := d.subscriptions.conn k, keyed := d.keyed.conn k }

def topic (d : Dispatcher) (name : String) : List TopicKey :=
  d.subscriptions.topicEnds.keys.filter (·.topic = name)

/-- One turn of the loop at the postoffice with the given endpoint. -/
def serve (rpcEndpoint : String) (d : Dispatcher) :
    OfficeRequest → Option (Dispatcher × List Outgoing)
  | .nodeAdded => some (d.balanceOnNodeAdded rpcEndpoint)
  | .nodeRemoved removed => some (d.balanceOnNodeRemoved removed)
  | .register sub => some (d.registerSubscription rpcEndpoint sub)
  | .removeSubs nodeId => some (d.removeSubsByNodeId nodeId)
  | .receiverStart name => some (d.receiverStart name)
  | .receiverEnd name => (d.receiverEnd name).map (·, [])
  | .mail (.topic name) => some (d.topicMail name)
  | .mail (.trans mt) => some (d.transMail mt)

end Dispatcher

/-- What a request makes of the entry under a key of the registry. -/
def OfficeRequest.onSlot (req : OfficeRequest) (k : TopicKey) (key : String) (b : Option Subscription) :
    Option Subscription :=
  match req with
  | .register sub =>
    if sub.routed.topicKey = k ∧ sub.routed.key = key then
      if sub.routed.deleting then none else some (b.getD sub.routed)
    else b
  | .removeSubs nodeId => b.filter fun sub => !decide (sub.nodeId = nodeId)
  | .nodeRemoved rpcEndpoint => b.filter fun sub => !decide (sub.endpoint = rpcEndpoint)
  | _ => b

namespace Dispatcher

variable {own : String} {d d' : Dispatcher} {req : OfficeRequest} {out : List Outgoing}

structure SameSubs (d d' : Dispatcher) : Prop where
  registry : d'.subscriptions = d.subscriptions
  subsOf : ∀ n, d'.subsOf n = d.subsOf n

namespace SameSubs

theorem refl (d : Dispatcher) : SameSubs d d := ⟨rfl, fun _ => rfl⟩

theorem listen {name : String} {ch : ReceiverAsync} (h : ch.subs = d.subsOf name) :
    SameSubs d (d.listen name ch) :=
  ⟨rfl, MailRoom.subsOf_relisten h⟩

theorem topicMail (d : Dispatcher) (name : String) : SameSubs d (d.topicMail name).1 :=
  ⟨rfl, MailRoom.subsOf_topicMail d.toMailRoom name⟩

theorem transMail (d : Dispatcher) (mt : Meta) : SameSubs d (d.transMail mt).1 :=
  ⟨rfl, MailRoom.subsOf_transPost d.toMailRoom mt (transSubPrefix ++ mt.name)⟩

theorem receiverStart (d : Dispatcher) (name : String) : SameSubs d (d.receiverStart name).1 :=
  ⟨rfl, MailRoom.subsOf_receiverStart d.toMailRoom name⟩

theorem receiverEnd {name : String} (h : d.receiverEnd name = some d') : SameSubs d d' := by
  obtain ⟨m, _, hm, rfl⟩ := Option.pmap_eq_some_iff.mp h
  exact ⟨rfl, MailRoom.subsOf_receiverEnd hm⟩

end SameSubs

theorem registered_subscriptions (d : Dispatcher) (sub : Subscription) :
    (d.registerSubscription own sub).1.subscriptions =
      if sub.routed.deleting then (d.subscriptions.del sub.routed).1
      else d.subscriptions.add sub.routed := by
  unfold registerSubscription
  dsimp only
  split <;> rfl

theorem registered_room (d : Dispatcher) (sub : Subscription) :
    (d.registerSubscription own sub).1.toMailRoom = d.toMailRoom.registerSubscription own sub := by
  unfold registerSubscription
  dsimp only
  split <;> rfl

theorem registered_out (d : Dispatcher) (sub : Subscription) : (d.registerSubscription own sub).2 =
    if sub.routed.deleting then (d.subscriptions.del sub.routed).2.toList.flatMap (·.release) else [] := by
  unfold registerSubscription
  dsimp only
  split <;> rfl

theorem registered_subsOf (d : Dispatcher) (sub : Subscription) (n : String) :
    (d.registerSubscription own sub).1.subsOf n =
      if sub.routed.endpoint = own ∧ sub.routed.nodeId = n then
        if sub.routed.deleting then (d.subsOf n).erase sub.routed.topic
        else (d.subsOf n).insert sub.routed.topic sub.routed
      else d.subsOf n := by
  rw [registered_room, MailRoom.subsOf_registered]

/-- A dispatcher serves every request as its mail room does. -/
theorem room_serve (d : Dispatcher) (req : OfficeRequest) :
    (d.serve own req).map (fun r => r.1.toMailRoom) = d.toMailRoom.serve own req := by
  cases req with
  | nodeAdded => rfl
  | nodeRemoved removed => rfl
  | removeSubs nodeId => rfl
  | register sub => exact congrArg some (d.registered_room sub)
  | receiverStart name => rfl
  | receiverEnd name =>
    simp only [serve, receiverEnd, MailRoom.serve, Option.map_pmap]
    exact (Option.pmap_eq_map ..).trans Option.map_id'
  | mail mail =>
    cases mail with
    | topic name => rfl
    | trans mt => exact (MailRoom.transMail_eq d.toMailRoom mt).symm

theorem eq_of_serve {x : Dispatcher × List Outgoing} (h : some x = some (d', out)) : x.1 = d' := by
  rw [Option.some.inj h]

theorem out_of_serve {x : Dispatcher × List Outgoing} (h : some x = some (d', out)) : x.2 = out := by
  rw [Option.some.inj h]

/-- The registry is a family of entries that each request changes one by one. -/
theorem slot_serve (h : d.serve own req = some (d', out)) (k : TopicKey) (key : String) :
    d'.subscriptions.slot k key = req.onSlot k key (d.subscriptions.slot k key) := by
  cases req with
  | nodeAdded =>
    rw [← eq_of_serve h]
    rfl
  | nodeRemoved e =>
    rw [← eq_of_serve h]
    exact SubscriptionRegistry.slot_delWhere k key d.keyed fun sub => decide (sub.endpoint = e)
  | register sub =>
    rw [← eq_of_serve h, registered_subscriptions]
    split
    · next hdel => simp only [OfficeRequest.onSlot, hdel, if_true, SubscriptionRegistry.slot_del]
    · next hdel =>
      simp only [OfficeRequest.onSlot, hdel, Bool.false_eq_true, if_false, SubscriptionRegistry.slot_add]
  | removeSubs n =>
    rw [← eq_of_serve h]
    exact SubscriptionRegistry.slot_delWhere k key d.keyed fun sub => decide (sub.nodeId = n)
  | receiverStart name =>
    rw [← eq_of_serve h]
    rfl
  | receiverEnd name =>
    obtain ⟨d₁, hd, heq⟩ := Option.map_eq_some_iff.mp h
    cases heq
    rw [(SameSubs.receiverEnd hd).registry]
    rfl
  | mail mail =>
    cases mail with
    | topic name =>
      rw [← eq_of_serve h, (SameSubs.topicMail d name).registry]
      rfl
    | trans mt =>
      rw [← eq_of_serve h, (SameSubs.transMail d mt).registry]
      rfl

end Dispatcher

end Tarantula
