import Tarantula.EventLists
import Tarantula.ListenerNames

/-! The way of a published event to the workers. An event that is saved is sent once to each endpoint
that the registry of the publishing postoffice has for its topic, and the goroutine of the postoffice
there posts it to its listeners. -/

namespace Tarantula

namespace Dispatcher

/-- The workers that a mail of the topic is posted to. -/
def receivers (d : Dispatcher) (name : String) : List String :=
  (d.listeners.toList.filter fun x =>
    name ∈ x.2.subs ∧ (!x.2.rev.closed && x.2.rev.buf.length < x.2.rev.cap) = true).map (·.1)

theorem topicMail_out (d : Dispatcher) (name : String) :
    (d.topicMail name).2 = (d.receivers name).map fun n => .posted n (.topic name) := by
  unfold topicMail receivers
  dsimp only
  induction d.listeners.toList with
  | nil => rfl
  | cons x chs ih =>
    rw [List.flatMap_cons, ih, List.filter_cons, ReceiverAsync.posts_eq]
    by_cases hsub : name ∈ x.2.subs
    · by_cases hroom : (!x.2.rev.closed && x.2.rev.buf.length < x.2.rev.cap) = true
      · rw [if_pos hsub, if_pos hroom, if_pos (by simp [hsub, hroom])]
        rfl
      · rw [if_pos hsub, if_neg hroom, if_neg (by simp [hroom])]
        rfl
    · rw [if_neg hsub, if_neg (by simp [hsub])]
      rfl

theorem nodup_receivers (d : Dispatcher) (name : String) : (d.receivers name).Nodup := by
  have hkeys : d.listeners.keys.Nodup := Std.ExtTreeMap.nodup_keys
  rw [← Std.ExtTreeMap.map_fst_toList_eq_keys] at hkeys
  exact hkeys.sublist (List.filter_sublist.map _)

theorem mem_receivers {d : Dispatcher} {name n : String} :
    n ∈ d.receivers name ↔ name ∈ d.subsOf n ∧ d.HasRoom n := by
  rw [← mem_topicMail, topicMail_out]
  simp

theorem nodup_topic (d : Dispatcher) (name : String) : ((d.topic name).map (·.endpoint)).Nodup := by
  have hkeys : (d.topic name).Nodup := Std.ExtTreeMap.nodup_keys.sublist List.filter_sublist
  refine hkeys.map_on fun k hk k' hk' he => ?_
  have htopic := of_decide_eq_true (List.mem_filter.mp hk).2
  have htopic' := of_decide_eq_true (List.mem_filter.mp hk').2
  cases k
  cases k'
  simp_all

end Dispatcher

/-- An event that was sent out, with the registry that it was sent by. -/
structure Publication where
  name : String
  office : Dispatcher

def Publication.targets (p : Publication) : List String := (p.office.topic p.name).map (·.endpoint)

/-- A Send that was served, with the postoffice as it was then. -/
structure Delivery where
  id : Nat
  endpoint : String
  name : String
  office : Dispatcher

def Delivery.key (r : Delivery) : Nat × String := (r.id, r.endpoint)

def Delivery.posts (r : Delivery) : List (Nat × String × String) :=
  (r.office.receivers r.name).map fun n => (r.id, r.endpoint, n)

/-- `flight` are the Sends on the way, each with the number of its event and its endpoint. The last
four fields are a record for the proofs. -/
structure Fanout where
  stores : String → Db
  offices : String → Dispatcher
  flight : List (Nat × String)
  publications : List Publication
  lost : List (Nat × String)
  deliveries : List Delivery
  posted : List (Nat × String × String)

/-- `elsewhere` and `written` stand for all that other requests do to a postoffice and to the stores. -/
inductive FanoutEvent
  | publish (office : String) (m : NodeRing) (call : PublishCall)
  | deliver (i : Nat)
  | drop (i : Nat)
  | elsewhere (office : String) (d : Dispatcher)
  | written (stores : String → Db)

def sends (ps : List Publication) : List (Nat × String) :=
  ps.zipIdx.flatMap fun x => x.1.targets.map fun e => (x.2, e)

namespace Fanout

section Step

variable (registered : String → Bool) (marshal : Topic → Option Bytes) (hash32 : Bytes → UInt32)

def start : Fanout := ⟨fun _ => ∅, fun _ => .start, [], [], [], [], []⟩

def setOffice (st : Fanout) (e : String) (d : Dispatcher) : Fanout :=
  { st with offices := Function.update st.offices e d }

/-- The Sends are made once the event is saved. -/
def publish (st : Fanout) (office name : String) : Fanout :=
  let d := st.offices office
  { st.setOffice office ((d.topic name).foldl Dispatcher.conn d) with
    flight := st.flight ++ (d.topic name).map fun k => (st.publications.length, k.endpoint)
    publications := st.publications ++ [⟨name, d⟩] }

/-- `Send` at the endpoint, up to the channels of the workers. -/
def deliver (st : Fanout) (i id : Nat) (e name : String) : Fanout :=
  let (d, out) := (st.offices e).topicMail name
  { st.setOffice e d with
    flight := st.flight.eraseIdx i
    deliveries := st.deliveries ++ [⟨id, e, name, st.offices e⟩]
    posted := st.posted ++ out.filterMap fun o => (o.mailed e).map fun x => (id, x.1, x.2.1) }

def step (st : Fanout) : FanoutEvent → Option Fanout
  | .publish office m call =>
    match Topic.runPublish registered marshal hash32 m call.env call.now call.topic st.stores with
    | none => none
    | some (stores, false) => some { st with stores }
    | some (stores, true) => some ({ st with stores }.publish office call.topic.name)
  | .deliver i =>
    st.flight[i]?.bind fun (id, e) => st.publications[id]?.map fun p => st.deliver i id e p.name
  | .drop i => st.flight[i]?.map fun x => { st with flight := st.flight.eraseIdx i, lost := x :: st.lost }
  | .elsewhere office d => some (st.setOffice office d)
  | .written stores => some { st with stores }

end Step

section Sends

theorem sends_append (ps : List Publication) (p : Publication) :
    sends (ps ++ [p]) = sends ps ++ p.targets.map fun e => (ps.length, e) := by
  simp [sends, List.zipIdx_append]

theorem mem_sends {ps : List Publication} {id : Nat} {e : String} :
    (id, e) ∈ sends ps ↔ ∃ p, ps[id]? = some p ∧ e ∈ p.targets := by
  simp only [sends, List.mem_flatMap, List.mem_map, Prod.mk.injEq, Prod.exists, List.mem_zipIdx_iff_getElem?]
  constructor
  · rintro ⟨p, i, hp, e', he', rfl, rfl⟩
    exact ⟨p, hp, he'⟩
  · rintro ⟨p, hp, he⟩
    exact ⟨p, id, hp, e, he, rfl, rfl⟩

theorem nodup_sends (ps : List Publication) : (sends ps).Nodup := by
  induction ps using List.reverseRecOn with
  | nil => exact List.nodup_nil
  | append_singleton ps p ih =>
    rw [sends_append]
    refine ih.append ?_ ?_
    · exact (p.office.nodup_topic p.name).map fun e e' h => (Prod.mk.inj h).2
    · -- the numbers of the events before are smaller
      intro x hx hx'
      obtain ⟨e, -, rfl⟩ := List.mem_map.mp hx'
      obtain ⟨q, hq, -⟩ := mem_sends.mp hx
      simp at hq

end Sends

/-- Every Send is on the way, lost or served, and what was posted is what the served ones posted. -/
structure Kept (st : Fanout) : Prop where
  conserved : (st.flight ++ st.lost ++ st.deliveries.map Delivery.key).Perm (sends st.publications)
  named : ∀ r ∈ st.deliveries, st.publications[r.id]?.map (·.name) = some r.name
  posted : st.posted = st.deliveries.flatMap Delivery.posts

section Runs

variable {registered : String → Bool} {marshal : Topic → Option Bytes} {hash32 : Bytes → UInt32}
  {st st' : Fanout}

theorem kept_start : Kept start := ⟨.refl _, by simp [start], rfl⟩

theorem Kept.publish (h : st.Kept) (office name : String) : (st.publish office name).Kept := by
  refine ⟨?_, fun r hr => ?_, h.posted⟩
  · have htargets : ((st.offices office).topic name).map (fun k => (st.publications.length, k.endpoint)) =
        (Publication.targets ⟨name, st.offices office⟩).map fun e => (st.publications.length, e) := by
      simp [Publication.targets]
    have hold := List.perm_iff_count.mp h.conserved
    simp only [Fanout.publish, setOffice]
    rw [sends_append, htargets, List.perm_iff_count]
    intro x
    have hx := hold x
    simp only [List.count_append] at hx ⊢
    omega
  · have hnamed := h.named r hr
    obtain ⟨p, hp, hname⟩ := Option.map_eq_some_iff.mp hnamed
    have hlt : r.id < st.publications.length := (List.getElem?_eq_some_iff.mp hp).1
    simp only [Fanout.publish]
    rw [List.getElem?_append_left hlt]
    exact hnamed

theorem deliver_posted (st : Fanout) (i id : Nat) (e name : String) :
    (st.deliver i id e name).posted = st.posted ++ Delivery.posts ⟨id, e, name, st.offices e⟩ := by
  have hout := (st.offices e).topicMail_out name
  simp only [deliver, hout, Delivery.posts, List.filterMap_map]
  congr 1
  induction (st.offices e).receivers name with
  | nil => rfl
  | cons n ns ih => simp [Outgoing.mailed]

theorem count_eraseIdx {i : Nat} {x : Nat × String} (hi : st.flight[i]? = some x) (y : Nat × String) :
    st.flight.count y = (st.flight.eraseIdx i).count y + if x = y then 1 else 0 := by
  obtain ⟨hlt, rfl⟩ := List.getElem?_eq_some_iff.mp hi
  rw [← (List.getElem_cons_eraseIdx_perm hlt).count_eq y, List.count_cons]
  simp

theorem Kept.deliver (h : st.Kept) {i id : Nat} {e : String} {p : Publication}
    (hi : st.flight[i]? = some (id, e)) (hp : st.publications[id]? = some p) :
    (st.deliver i id e p.name).Kept := by
  refine ⟨?_, fun r hr => ?_, ?_⟩
  · have hold := List.perm_iff_count.mp h.conserved
    simp only [Fanout.deliver, setOffice, List.map_append, List.map_singleton]
    rw [List.perm_iff_count]
    intro x
    have hx := hold x
    have hcount := count_eraseIdx hi x
    simp only [List.count_append, List.count_singleton, Delivery.key, beq_iff_eq] at hx ⊢
    omega
  · rcases List.mem_append.mp hr with hr | hr
    · exact h.named r hr
    · rw [List.mem_singleton.mp hr]
      exact Option.map_eq_some_iff.mpr ⟨p, hp, rfl⟩
  · rw [deliver_posted, h.posted]
    simp [Fanout.deliver]

theorem Kept.drop (h : st.Kept) {i : Nat} {x : Nat × String} (hi : st.flight[i]? = some x) :
    Kept { st with flight := st.flight.eraseIdx i, lost := x :: st.lost } := by
  refine ⟨?_, h.named, h.posted⟩
  rw [List.perm_iff_count]
  intro y
  have hy := List.perm_iff_count.mp h.conserved y
  have hcount := count_eraseIdx hi y
  simp only [List.count_append, List.count_cons, beq_iff_eq] at hy ⊢
  omega

theorem Kept.step (h : st.Kept) {e : FanoutEvent} (he : step registered marshal hash32 st e = some st') :
    st'.Kept := by
  cases e with
  | publish office m call =>
    simp only [Fanout.step] at he
    split at he
    · cases he
    · cases he
      exact ⟨h.conserved, h.named, h.posted⟩
    · next stores _ =>
      cases he
      have hstored : Kept { st with stores } := ⟨h.conserved, h.named, h.posted⟩
      exact hstored.publish office _
  | deliver i =>
    obtain ⟨⟨id, e⟩, hi, he⟩ := Option.bind_eq_some_iff.mp he
    obtain ⟨p, hp, rfl⟩ := Option.map_eq_some_iff.mp he
    exact h.deliver hi hp
  | drop i =>
    obtain ⟨x, hx, rfl⟩ := Option.map_eq_some_iff.mp he
    exact h.drop hx
  | elsewhere office d =>
    cases he
    exact ⟨h.conserved, h.named, h.posted⟩
  | written stores =>
    cases he
    exact ⟨h.conserved, h.named, h.posted⟩

theorem kept_of_reaches (h : Reaches (step registered marshal hash32) (fun _ _ => True) start st) : st.Kept :=
  h.invariant kept_start fun _ _ _ hk _ he => hk.step he

/-- A Send is served at most once. -/
theorem Kept.nodup_deliveries (h : st.Kept) : (st.deliveries.map Delivery.key).Nodup := by
  have hall := h.conserved.nodup_iff.mpr (nodup_sends st.publications)
  exact (List.nodup_append.mp hall).2.1

theorem Kept.nodup_posted (h : st.Kept) : st.posted.Nodup := by
  rw [h.posted, List.nodup_flatMap]
  constructor
  · intro r _
    exact (r.office.nodup_receivers r.name).map fun n n' he => (Prod.mk.inj (Prod.mk.inj he).2).2
  · refine (List.pairwise_map.mp h.nodup_deliveries).imp fun hne x hx hx' => hne ?_
    obtain ⟨n, -, rfl⟩ := List.mem_map.mp hx
    obtain ⟨n', -, he⟩ := List.mem_map.mp hx'
    obtain ⟨hid, he⟩ := Prod.mk.inj he
    exact Prod.ext hid.symm (Prod.mk.inj he).1.symm

/-- An event goes to each endpoint that has subscribers of its topic once, unless its Send is lost, and
is posted there once to each worker that subscribes to the topic and has room in its channel. -/
theorem published_once (h : Reaches (step registered marshal hash32) (fun _ _ => True) start st) :
    st.posted.Nodup ∧
    (∀ id p, st.publications[id]? = some p → ∀ e,
      st.flight.count (id, e) + st.lost.count (id, e) + (st.deliveries.map Delivery.key).count (id, e) =
        if ⟨p.name, e⟩ ∈ p.office.subscriptions.topicEnds then 1 else 0) ∧
    ∀ id p, st.publications[id]? = some p → ∀ e n, (id, e, n) ∈ st.posted ↔
      ∃ r ∈ st.deliveries, r.key = (id, e) ∧ p.name ∈ r.office.subsOf n ∧ r.office.HasRoom n := by
  have hk := kept_of_reaches h
  refine ⟨hk.nodup_posted, fun id p hp e => ?_, fun id p hp e n => ?_⟩
  · have hcount := List.perm_iff_count.mp hk.conserved (id, e)
    rw [List.count_append, List.count_append, (nodup_sends _).count] at hcount
    rw [hcount]
    refine if_congr ?_ rfl rfl
    rw [mem_sends, hp]
    constructor
    · rintro ⟨q, hq, he⟩
      obtain rfl := Option.some.inj hq
      obtain ⟨k, hk, rfl⟩ := List.mem_map.mp he
      obtain ⟨hmem, htopic⟩ := List.mem_filter.mp hk
      rw [← of_decide_eq_true htopic]
      exact Std.ExtTreeMap.mem_keys.mp hmem
    · intro hmem
      refine ⟨p, rfl, List.mem_map.mpr ⟨⟨p.name, e⟩, List.mem_filter.mpr ⟨?_, ?_⟩, rfl⟩⟩
      · exact Std.ExtTreeMap.mem_keys.mpr hmem
      · exact decide_eq_true rfl
  · rw [hk.posted, List.mem_flatMap]
    have hname : ∀ r ∈ st.deliveries, r.id = id → r.name = p.name := by
      intro r hr hid
      have hnamed := hk.named r hr
      rw [hid, hp] at hnamed
      exact (Option.some.inj hnamed).symm
    constructor
    · rintro ⟨r, hr, hmem⟩
      obtain ⟨n', hn', he⟩ := List.mem_map.mp hmem
      simp only [Prod.mk.injEq] at he
      obtain ⟨rfl, rfl, rfl⟩ := he
      rw [hname r hr rfl] at hn'
      exact ⟨r, hr, rfl, Dispatcher.mem_receivers.mp hn'⟩
    · rintro ⟨r, hr, hkey, hreceives⟩
      obtain ⟨rfl, rfl⟩ := Prod.mk.inj hkey
      refine ⟨r, hr, List.mem_map.mpr ⟨n, ?_, rfl⟩⟩
      rw [hname r hr rfl]
      exact Dispatcher.mem_receivers.mpr hreceives

end Runs

section Sample

open MemberHashRing

def logSubscription (worker endpoint : String) : Subscription :=
  ⟨topicMail, worker, "", "log", endpoint, false⟩

/-- Two workers are connected, of which one has no room in its channel. A third one is connected to the
branch. -/
def sampleOffice : Dispatcher :=
  let subs := [logSubscription "worker" "office", logSubscription "slow" "office",
    logSubscription "remote" "branch"]
  let d := subs.foldl (fun d sub => (d.registerSubscription "office" sub).1) Dispatcher.start
  d.listen "slow" { ReceiverAsync.make 0 (d.subsOf "slow") with
    rev := ⟨nodeEventBufferSize, List.replicate nodeEventBufferSize (.topic "old"), false⟩ }

def sampleBranch : Dispatcher :=
  (Dispatcher.start.registerSubscription "branch" (logSubscription "remote" "branch")).1

/-- Of two events the first does not come to the branch, and none is posted to the worker without room. -/
theorem published_once_sample :
    ∃ st, Reaches (step (fun _ => true) (fun topic => some topic.body) Murmur3.sum32) (fun _ _ => True)
        start st ∧
      st.posted = [(0, "office", "worker"), (1, "branch", "remote"), (1, "office", "worker")] ∧
      st.lost = [(0, "branch")] ∧ st.flight = [] ∧ st.posted.Nodup ∧
      ∀ n, (0, "office", n) ∈ st.posted ↔
        ∃ r ∈ st.deliveries, r.key = (0, "office") ∧ "log" ∈ r.office.subsOf n ∧ r.office.HasRoom n := by
  obtain ⟨st, hst, hposted, hlost, hflight, hname⟩ := exists_reaches_of_checkedRun
    (step (fun _ => true) (fun topic => some topic.body) Murmur3.sum32) (fun _ _ => True)
    (fun st => st.posted = [(0, "office", "worker"), (1, "branch", "remote"), (1, "office", "worker")] ∧
      st.lost = [(0, "branch")] ∧ st.flight = [] ∧ st.publications[0]?.map (·.name) = some "log") start
    [.elsewhere "office" sampleOffice, .elsewhere "branch" sampleBranch,
      .publish "office" sampleRing.toNodeRing (Board.samplePublish [47]), .drop 0, .deliver 0,
      .publish "office" sampleRing.toNodeRing (Board.samplePublish [48]), .deliver 0, .deliver 0]
    (by decide +kernel)
  obtain ⟨hnodup, -, hmem⟩ := published_once hst
  obtain ⟨p, hp, hlog⟩ := Option.map_eq_some_iff.mp hname
  refine ⟨st, hst, hposted, hlost, hflight, hnodup, fun n => ?_⟩
  rw [← hlog]
  exact hmem 0 p hp "office" n

end Sample

end Fanout

end Tarantula
