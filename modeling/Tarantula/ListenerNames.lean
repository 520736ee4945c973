import Tarantula.FinishRouting
import Tarantula.PickFairness
import Tarantula.SubscriptionSet

/-! Transactions and topics share one table of names. The listener of a transaction stands there
under its name with `_t_` before it, unless the name already starts so, and whoever looks for a
transaction always puts `_t_` before its name. -/

namespace Tarantula

namespace Subscription

/-- A subscription after a number of SyncSubs: an office pushes it as it has stored it. -/
def synced (sub : Subscription) : Nat → Subscription
  | 0 => sub
  | hops + 1 => (sub.synced hops).routed

variable {sub : Subscription}

theorem routed_routed : sub.routed.routed = sub.routed := by
  by_cases h : sub.type = transMail ∧ ¬ hasPrefix sub.topic transSubPrefix
  · have hr : sub.routed = { sub with topic := transSubPrefix ++ sub.topic } := if_pos h
    rw [hr, routed]
    exact if_neg fun hn => hn.2 (hasPrefix_append transSubPrefix sub.topic)
  · have hr : sub.routed = sub := if_neg h
    rw [hr, hr]

/-- However a subscription comes to an office, it is stored there in the same way. -/
theorem routed_synced (hops : Nat) : (sub.synced hops).routed = sub.routed := by
  induction hops with
  | zero => rfl
  | succ hops ih => rw [synced, ih, routed_routed]

theorem routed_topic (htype : sub.type = transMail) (h : hasPrefix sub.topic transSubPrefix = false) :
    sub.routed.topic = transSubPrefix ++ sub.topic := by
  have hr : sub.routed = { sub with topic := transSubPrefix ++ sub.topic } := if_pos ⟨htype, by simp [h]⟩
  rw [hr]

theorem routed_topic_of_hasPrefix (h : hasPrefix sub.topic transSubPrefix = true) :
    sub.routed.topic = sub.topic := by
  have hr : sub.routed = sub := if_neg fun hn => hn.2 h
  rw [hr]

theorem append_ne_self (name : String) : transSubPrefix ++ name ≠ name := by
  intro h
  have hlen := congrArg (fun s : String => s.toList.length) h
  simp only [String.toList_append, List.length_append] at hlen
  have hpos : 0 < transSubPrefix.toList.length := by decide
  omega

theorem append_inj {name name' : String} (h : transSubPrefix ++ name = transSubPrefix ++ name') :
    name = name' := by
  have hl := congrArg String.toList h
  simp only [String.toList_append, List.append_cancel_left_eq] at hl
  exact String.toList_inj.mp hl

end Subscription

namespace Dispatcher

/-- TASK_REGISTER -/
def taskRegister (d : Dispatcher) (name : String) : List TopicKey := d.topic (transSubPrefix ++ name)

/-- The worker has no other subscription where the listener is stored or looked up, and no other
subscription has the key of the listener. Under other names the worker may have any. -/
structure Sole (d : Dispatcher) (sub : Subscription) : Prop where
  name : ∀ b ∈ d.subscriptions.subs, b.nodeId = sub.nodeId →
    b.topic = sub.routed.topic ∨ b.topic = transSubPrefix ++ sub.topic → b = sub.routed
  key : ∀ b ∈ d.subscriptions.subs, b.topicKey = sub.routed.topicKey → b.key = sub.routed.key → b = sub.routed

/-- Requests for the name of the transaction answer with the worker, or with its office. -/
structure Finds (d : Dispatcher) (sub : Subscription) : Prop where
  byNodeId : ∀ range tag, (d.taskAssign range sub.nodeId tag sub.topic).2 =
    some ⟨0, sub.nodeId, "", transSubPrefix ++ sub.topic, sub.endpoint, false⟩
  byTag : ∀ range tag, tag = "" ∨ sub.tag = tag → (d.taskAssign range "" tag sub.topic).2 ≠ none ∧
    sub.endpoint ∈ d.subscriptions.endpoints (transSubPrefix ++ sub.topic) tag
  listed : ⟨transSubPrefix ++ sub.topic, sub.endpoint⟩ ∈ d.taskRegister sub.topic

/-- A mail of the transaction comes to the worker when it is its turn. -/
def Delivers (d : Dispatcher) (sub : Subscription) : Prop :=
  ∀ (mt : Meta) (pre post : List String), mt.name = sub.topic → "" ∉ d.listeners → d.HasRoom sub.nodeId →
    d.listenerPool = pre ++ sub.nodeId :: post →
    (∀ n ∈ pre, transSubPrefix ++ sub.topic ∉ d.subsOf n) →
    (d.transMail mt).2 = [.posted sub.nodeId (.trans mt)]

/-- A request for another transaction answers with a subscription that was there before the listener
was registered, and is not the listener. -/
def Separates (before after : Dispatcher) (sub : Subscription) : Prop :=
  ∀ range nodeId tag name, name ≠ sub.topic →
    ∀ found, (after.taskAssign range nodeId tag name).2 = some found →
      ∃ b ∈ before.subscriptions.subs, b ≠ sub.routed ∧ b.topic = transSubPrefix ++ name ∧
        b.nodeId = found.nodeId ∧ b.endpoint = found.endpoint

/-- A topic that is published at the office `d` comes to the worker at the office `home` by the entry of
the listener. -/
def Publishes (registered : String → Bool) (d home : Dispatcher) (sub : Subscription)
    (topic : String) : Prop :=
  registered topic = true ∧ topic = sub.routed.topic ∧ ⟨topic, sub.endpoint⟩ ∈ d.topic topic ∧
    .posted sub.nodeId (.topic topic) ∈ (home.topicMail topic).2

/-- The listener is in no table of the office; only its own office has one of its entries. -/
def Forgot (own : String) (d : Dispatcher) (sub : Subscription) : Prop :=
  (∀ b ∈ d.subscriptions.subs, b.nodeId = sub.nodeId → b.topic ≠ sub.routed.topic) ∧
    (sub.endpoint = own → sub.routed.topic ∉ d.subsOf sub.nodeId)

section Answers

variable {d : Dispatcher}

/-- TASK_ASSIGN answers with a subscription under the name of the transaction. -/
theorem taskAssign_some {range : RangeOrder} {nodeId tag name : String} {found : Subscription}
    (h : (d.taskAssign range nodeId tag name).2 = some found) :
    ∃ b ∈ d.subscriptions.subs, b.topic = transSubPrefix ++ name ∧ b.nodeId = found.nodeId ∧
      b.endpoint = found.endpoint := by
  unfold taskAssign at h
  dsimp only at h
  split at h
  · next sub hsub =>
    cases h
    split at hsub
    · obtain ⟨b, hb, rfl⟩ := Option.map_eq_some_iff.mp hsub
      have hmem := (range.perm _).mem_iff.mp (List.mem_of_find?_eq_some hb)
      have hprop := List.find?_some hb
      simp only [decide_eq_true_eq] at hprop
      exact ⟨b, hmem, hprop.1, hprop.2, rfl⟩
    · cases hsub
  · have hpick : (d.subscriptions.pick range (transSubPrefix ++ name) tag).2 = some found := h
    rcases SubscriptionRegistry.pick_cases range d.subscriptions (transSubPrefix ++ name) tag with
      hp | ⟨x, hx, hp⟩
    · rw [hp] at hpick
      cases hpick
    · rw [hp] at hpick
      cases hpick
      obtain ⟨b, hb, hmatch, hep, hnode⟩ := SubscriptionRegistry.mem_entries d.keyed hx
      exact ⟨b, hb, hmatch.1, hnode, hep⟩

theorem mem_topic_of_subs {b : Subscription} (h : b ∈ d.subscriptions.subs) :
    b.topicKey ∈ d.topic b.topic := by
  obtain ⟨k, key, hslot⟩ := ExtMap.mem_values.mp h
  have hk : b.topicKey = k := (d.keyed.keys k key b hslot).1
  obtain ⟨subs, hsubs, -⟩ := Option.bind_eq_some_iff.mp hslot
  refine List.mem_filter.mpr ⟨Std.ExtTreeMap.mem_keys.mpr ?_, by simp [Subscription.topicKey]⟩
  rw [hk]
  exact ExtMap.mem_of_getElem? hsubs

/-- A topic is posted to the listeners that subscribe to it and have room. -/
theorem mem_topicMail {topic w : String} :
    .posted w (.topic topic) ∈ (d.topicMail topic).2 ↔ topic ∈ d.subsOf w ∧ d.HasRoom w := by
  have hpost (n : String) (ch : ReceiverAsync) :
      .posted w (.topic topic) ∈ (if topic ∈ ch.subs then ch.posts n (.topic topic) else []) ↔
        n = w ∧ topic ∈ ch.subs ∧ (!ch.rev.closed && ch.rev.buf.length < ch.rev.cap) = true := by
    rw [ReceiverAsync.posts_eq]
    by_cases hsub : topic ∈ ch.subs
    · rw [if_pos hsub]
      split
      · next hroom => simp only [List.mem_singleton, Outgoing.posted.injEq, and_true, hsub, hroom, eq_comm]
      · next hroom => simp [hroom]
    · simp only [hsub, if_false, List.not_mem_nil, false_and, and_false]
  rw [topicMail, List.mem_flatMap]
  simp only [Prod.exists, Std.ExtTreeMap.mem_toList_iff_getElem?_eq_some, hpost]
  unfold HasRoom
  cases hch : d.listeners[w]? with
  | none =>
    rw [MailRoom.subsOf_of_none hch]
    simp [hch]
  | some ch =>
    rw [MailRoom.subsOf_of_getElem? hch]
    constructor
    · rintro ⟨n, ch', hn, rfl, hsub, hroom⟩
      cases hch.symm.trans hn
      exact ⟨hsub, hroom⟩
    · rintro ⟨hsub, hroom⟩
      exact ⟨w, ch, hch, rfl, hsub, hroom⟩

end Answers

section Registered

variable {own : String} {d : Dispatcher} {sub b : Subscription} (hops : Nat)

theorem mem_registered (hdel : sub.deleting = false) (hd : d.Sole sub) :
    b ∈ (d.registerSubscription own (sub.synced hops)).1.subscriptions.subs ↔
      b ∈ d.subscriptions.subs ∨ b = sub.routed := by
  rw [registered_subscriptions, Subscription.routed_synced, Subscription.routed_deleting, hdel]
  simp only [Bool.false_eq_true, if_false]
  rw [SubscriptionRegistry.mem_subs_add d.keyed]
  refine or_congr_right' fun hold => and_iff_left_of_imp ?_
  rintro rfl
  cases hslot : d.subscriptions.slot sub.routed.topicKey sub.routed.key with
  | none => rfl
  | some x =>
    -- a subscription with the key of the listener is the listener
    have hkeys := d.keyed.keys _ _ x hslot
    have hx : x ∈ d.subscriptions.subs := ExtMap.mem_values.mpr ⟨_, _, hslot⟩
    rw [hd.key x hx hkeys.1 hkeys.2] at hx
    exact absurd hx hold

theorem eq_routed (hdel : sub.deleting = false) (hd : d.Sole sub)
    (hb : b ∈ (d.registerSubscription own (sub.synced hops)).1.subscriptions.subs)
    (hnode : b.nodeId = sub.nodeId)
    (htopic : b.topic = sub.routed.topic ∨ b.topic = transSubPrefix ++ sub.topic) : b = sub.routed := by
  rcases (mem_registered hops hdel hd).mp hb with hold | hnew
  · exact hd.name b hold hnode htopic
  · exact hnew

theorem finds_registered (hdel : sub.deleting = false) (hnode : sub.nodeId ≠ "") (hd : d.Sole sub)
    (htopic : sub.routed.topic = transSubPrefix ++ sub.topic) :
    (d.registerSubscription own (sub.synced hops)).1.Finds sub := by
  have hmem : sub.routed ∈ (d.registerSubscription own (sub.synced hops)).1.subscriptions.subs :=
    (mem_registered hops hdel hd).mpr (.inr rfl)
  refine ⟨fun range tag => ?_, fun range tag htag => ?_, ?_⟩
  · rw [taskAssign_byNodeId range tag hnode ⟨_, hmem, htopic, sub.routed_nodeId⟩ (e := sub.endpoint)]
    intro b hb hbtopic hbnode
    rw [eq_routed hops hdel hd hb hbnode (.inr hbtopic), sub.routed_endpoint]
  · have hend : sub.endpoint ∈ (d.registerSubscription own (sub.synced hops)).1.subscriptions.endpoints
        (transSubPrefix ++ sub.topic) tag := by
      refine List.mem_dedup.mpr (List.mem_map.mpr ⟨sub.routed, List.mem_filter.mpr ⟨hmem, ?_⟩, ?_⟩)
      · have hmatch : sub.routed.Matches (transSubPrefix ++ sub.topic) tag :=
          ⟨htopic, by rwa [sub.routed_tag]⟩
        exact decide_eq_true hmatch
      · exact sub.routed_endpoint
    refine ⟨?_, hend⟩
    intro hnone
    have hpick : ((d.registerSubscription own (sub.synced hops)).1.subscriptions.pick range
        (transSubPrefix ++ sub.topic) tag).2 = none := hnone
    rw [SubscriptionRegistry.pick_eq_none_iff (Dispatcher.keyed _)] at hpick
    rw [hpick] at hend
    cases hend
  · have hkey := mem_topic_of_subs hmem
    rw [Subscription.topicKey, htopic, sub.routed_endpoint] at hkey
    exact hkey

theorem separates_registered (hdel : sub.deleting = false) (hd : d.Sole sub)
    (htopic : sub.routed.topic = transSubPrefix ++ sub.topic) :
    Separates d (d.registerSubscription own (sub.synced hops)).1 sub := by
  intro range nodeId tag name hne found hfound
  obtain ⟨b, hb, hbtopic, hbnode, hbend⟩ := taskAssign_some hfound
  have hother : b ≠ sub.routed := by
    rintro rfl
    exact hne (Subscription.append_inj (hbtopic.symm.trans htopic))
  rcases (mem_registered hops hdel hd).mp hb with hold | hnew
  · exact ⟨b, hold, hother, hbtopic, hbnode, hbend⟩
  · exact absurd hnew hother

theorem forgot_unregistered (hdel : sub.deleting = false) (hd : d.Sole sub) :
    ((d.registerSubscription own (sub.synced hops)).1.registerSubscription own
      { sub with deleting := true }).1.Forgot own sub := by
  have hr : ({ sub with deleting := true } : Subscription).routed = { sub.routed with deleting := true } := by
    unfold Subscription.routed
    dsimp only
    split <;> rfl
  have hkeys : ({ sub.routed with deleting := true } : Subscription).topicKey = sub.routed.topicKey ∧
      ({ sub.routed with deleting := true } : Subscription).key = sub.routed.key := ⟨rfl, rfl⟩
  constructor
  · intro b hb hbnode hbtopic
    rw [registered_subscriptions, hr] at hb
    simp only [if_true] at hb
    rw [SubscriptionRegistry.mem_subs_del (Dispatcher.keyed _)] at hb
    obtain ⟨hb, hkey⟩ := hb
    rw [eq_routed hops hdel hd hb hbnode (.inl hbtopic)] at hkey
    exact hkey hkeys
  · intro hown
    rw [registered_subsOf, hr]
    simp [hown, sub.routed_nodeId, sub.routed_endpoint]

end Registered

section Home

variable {home : Dispatcher} {sub : Subscription}

theorem mem_subsOf_home (hdel : sub.deleting = false) :
    sub.routed.topic ∈ (home.registerSubscription sub.endpoint sub).1.subsOf sub.nodeId := by
  rw [registered_subsOf, sub.routed_endpoint, sub.routed_nodeId, sub.routed_deleting, hdel]
  simp

theorem hasRoom_home (hdel : sub.deleting = false)
    (hroom : sub.nodeId ∈ home.listeners → home.HasRoom sub.nodeId) :
    (home.registerSubscription sub.endpoint sub).1.HasRoom sub.nodeId := by
  have hch : (home.registerSubscription sub.endpoint sub).1.listeners[sub.nodeId]?.map (·.rev) =
      some (home.listeners[sub.nodeId]?.getD (.make 0 ∅)).rev := by
    rw [registered_room, MailRoom.registerSubscription, sub.routed_deleting, hdel, sub.routed_endpoint,
      sub.routed_nodeId]
    simp [MailRoom.listen]
  obtain ⟨ch, hlisten, hrev⟩ := Option.map_eq_some_iff.mp hch
  have hgoal : (!ch.rev.closed && decide (ch.rev.buf.length < ch.rev.cap)) = true := by
    rw [hrev]
    cases hold : home.listeners[sub.nodeId]? with
    | none => rfl
    | some old =>
      have hr := hroom (ExtMap.mem_of_getElem? hold)
      unfold HasRoom at hr
      rw [hold] at hr
      exact hr
  unfold HasRoom
  rw [hlisten]
  exact hgoal

theorem delivers_home (hdel : sub.deleting = false)
    (htopic : sub.routed.topic = transSubPrefix ++ sub.topic) :
    (home.registerSubscription sub.endpoint sub).1.Delivers sub := by
  intro mt pre post hname hempty hroom hpool hpre
  rw [transMail_posted_iff, hname]
  refine ⟨fun hhead => hempty ?_, ?_, hroom⟩
  · exact (Dispatcher.pooled _).mem "" |>.mp (List.mem_of_head? hhead)
  · rw [next, hpool, List.find?_append, List.find?_eq_none.mpr (by simpa using hpre), List.find?_cons]
    have hsub : sub.routed.topic ∈ (home.registerSubscription sub.endpoint sub).1.subsOf sub.nodeId :=
      mem_subsOf_home hdel
    rw [htopic] at hsub
    simp [hsub]

end Home

/-- The listener of a transaction is kept apart from everything that has another name exactly when its
name does not start with the prefix and the topic that is published is not its name with the prefix. -/
theorem listener_names_separate_iff {sub : Subscription} (htype : sub.type = Tarantula.transMail)
    (hdel : sub.deleting = false) (hnode : sub.nodeId ≠ "") {home d : Dispatcher} (hh : home.Sole sub)
    (hd : d.Sole sub) (hroom : sub.nodeId ∈ home.listeners → home.HasRoom sub.nodeId) (own : String)
    (hops : Nat) (registered : String → Bool) (topic : String) :
    ((home.registerSubscription sub.endpoint sub).1.Finds sub ∧
      (home.registerSubscription sub.endpoint sub).1.Delivers sub ∧
      Separates home (home.registerSubscription sub.endpoint sub).1 sub ∧
      (d.registerSubscription own (sub.synced hops)).1.Finds sub ∧
      Separates d (d.registerSubscription own (sub.synced hops)).1 sub ∧
      ¬ Publishes registered (d.registerSubscription own (sub.synced hops)).1
        (home.registerSubscription sub.endpoint sub).1 sub topic ∧
      ((home.registerSubscription sub.endpoint sub).1.registerSubscription sub.endpoint
        { sub with deleting := true }).1.Forgot sub.endpoint sub ∧
      ((d.registerSubscription own (sub.synced hops)).1.registerSubscription own
        { sub with deleting := true }).1.Forgot own sub) ↔
    hasPrefix sub.topic transSubPrefix = false ∧
      (topic = transSubPrefix ++ sub.topic → registered topic = false) := by
  constructor
  · rintro ⟨-, -, -, hfinds, -, hpub, -, -⟩
    obtain ⟨b, hb, hbtopic, hbnode, -⟩ := taskAssign_some (hfinds.byNodeId ⟨id, fun _ => .refl _⟩ "")
    have htopic : sub.routed.topic = transSubPrefix ++ sub.topic := by
      rw [← eq_routed hops hdel hd hb hbnode (.inr hbtopic), hbtopic]
    constructor
    · cases hp : hasPrefix sub.topic transSubPrefix with
      | false => rfl
      | true =>
        rw [Subscription.routed_topic_of_hasPrefix hp] at htopic
        exact absurd htopic.symm (Subscription.append_ne_self _)
    · rintro rfl
      cases hreg : registered (transSubPrefix ++ sub.topic) with
      | false => rfl
      | true =>
        have hposted : .posted sub.nodeId (.topic sub.routed.topic) ∈
            ((home.registerSubscription sub.endpoint sub).1.topicMail sub.routed.topic).2 :=
          mem_topicMail.mpr ⟨mem_subsOf_home hdel, hasRoom_home hdel hroom⟩
        rw [htopic] at hposted
        exact absurd ⟨hreg, htopic.symm, hfinds.listed, hposted⟩ hpub
  · rintro ⟨hp, hpub⟩
    have htopic := Subscription.routed_topic htype hp
    refine ⟨finds_registered 0 hdel hnode hh htopic, delivers_home hdel htopic,
      separates_registered 0 hdel hh htopic, finds_registered hops hdel hnode hd htopic,
      separates_registered hops hdel hd htopic, ?_, forgot_unregistered 0 hdel hh,
      forgot_unregistered hops hdel hd⟩
    rintro ⟨hreg, heq, -⟩
    have hfalse := hpub (heq.trans htopic)
    rw [hreg] at hfalse
    cases hfalse

section Sample

/-- A worker that registers a transaction. -/
def transListener (name : String) : Subscription :=
  ⟨Tarantula.transMail, "gcp.1", "dev", name, "office", false⟩

/-- The subscriptions of two workers: the topic of the one, its listener for another transaction, and the
listener of the other one for the same transaction. -/
def neighbours : List Subscription :=
  [⟨Tarantula.topicMail, "gcp.1", "dev", "message", "office", false⟩, transListener "create_gcp",
    { transListener "build_gcp" with nodeId := "gcp.2" }]

def busy (own : String) : Dispatcher :=
  neighbours.foldl (fun d sub => (d.registerSubscription own sub).1) start

/-- The listener of `build_gcp` at offices that know other listeners, and a topic of its own worker. -/
theorem listener_names_separate_sample :
    ∃ home d, ((busy "office").registerSubscription "office" (transListener "build_gcp")).1 = home ∧
      ((busy "other").registerSubscription "other" ((transListener "build_gcp").synced 2)).1 = d ∧
      (home.topicMail "message").2 = [.posted "gcp.1" (.topic "message")] ∧
      home.Finds (transListener "build_gcp") ∧ d.Finds (transListener "build_gcp") ∧
      Separates (busy "other") d (transListener "build_gcp") ∧
      ¬ Publishes (fun _ => true) d home (transListener "build_gcp") "message" := by
  have hsole : ∀ own ∈ ["office", "other"], (busy own).Sole (transListener "build_gcp") := by
    intro own hown
    constructor
    · revert own
      decide +kernel
    · revert own
      decide +kernel
  have hhome := hsole "office" (by simp)
  have hother := hsole "other" (by simp)
  have hroom : (busy "office").HasRoom (transListener "build_gcp").nodeId := by decide +kernel
  have htype : (transListener "build_gcp").type = Tarantula.transMail := rfl
  have hiff := listener_names_separate_iff htype rfl (by decide +kernel) hhome hother
    (fun _ => hroom) "other" 2
    (fun _ => true) "message"
  obtain ⟨hfinds, -, -, hfinds', hsep, hpub, -⟩ :=
    hiff.mpr ⟨by decide +kernel, fun h => absurd h (by decide +kernel)⟩
  exact ⟨_, _, rfl, rfl, by decide +kernel, hfinds, hfinds', hsep, hpub⟩

/-- A listener whose name starts with the prefix is not found by it, but by the rest of the name. The topic
with the name and the prefix of another listener comes to that listener. -/
theorem prefixed_listener_answers_for_another :
    ((start.registerSubscription "office" (transListener "_t_build")).1.taskAssign
      keyOrder "" "" "_t_build").2 =
        none ∧
      ((start.registerSubscription "office" (transListener "_t_build")).1.taskAssign
        keyOrder "" "" "build").2 =
        some ⟨0, "gcp.1", "", "_t_build", "office", false⟩ ∧
      ((start.registerSubscription "office" (transListener "_t_build")).1.transMail
        { (default : Meta) with name := "_t_build" }).2 = [] ∧
      ((start.registerSubscription "office" (transListener "build")).1.topicMail "_t_build").2 =
        [.posted "gcp.1" (.topic "_t_build")] := by
  decide +kernel

end Sample

end Dispatcher

end Tarantula
