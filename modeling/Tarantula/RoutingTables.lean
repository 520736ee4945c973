import Tarantula.Postoffice
import Tarantula.Runs

/-! The registry of a postoffice and the `Subs` of its listeners. Registrations change both,
the removal of all subscriptions of a node or of an endpoint only the registry, and a deletion
takes the topic from the `Subs` of the node under whichever tag it came. -/

namespace Tarantula

namespace Dispatcher

variable (own : String) (d : Dispatcher)

def Routes (n topic : String) : Prop :=
  ∃ key b, d.subscriptions.slot ⟨topic, own⟩ key = some b ∧ b.nodeId = n

/-- Topics in the `Subs` of a listener are those that the registry routes to its node here. -/
def Agree : Prop := ∀ n topic, topic ∈ d.subsOf n ↔ d.Routes own n topic

/-- The registry has a subscription of the node to the topic of `sub` under another key. -/
def RoutesBeside (sub : Subscription) (n : String) : Prop :=
  ∃ key b, key ≠ sub.key ∧ d.subscriptions.slot sub.topicKey key = some b ∧ b.nodeId = n

/-- A deletion takes the last subscription of its node to the topic, and where the key is also
that of another node, not the last of that node. -/
structure LastOfNode (sub : Subscription) : Prop where
  last : ¬ d.RoutesBeside sub sub.nodeId
  other : ∀ b, d.subscriptions.slot sub.topicKey sub.key = some b → b.nodeId ≠ sub.nodeId →
    d.RoutesBeside sub b.nodeId

/-- What keeps the tables together in one turn of the loop. -/
def Harmless : OfficeRequest → Prop
  | .register sub =>
    sub.routed.endpoint = own →
      if sub.routed.deleting then d.LastOfNode sub.routed
      else d.subscriptions.slot sub.routed.topicKey sub.routed.key = none ∨
        d.Routes own sub.routed.nodeId sub.routed.topic
  | .removeSubs n => ∀ topic, ¬ d.Routes own n topic
  | .nodeRemoved e => e = own → ∀ n topic, ¬ d.Routes own n topic
  | _ => True

def turn (req : OfficeRequest) : Option Dispatcher := (d.serve own req).map (·.1)

variable {own d} {d' : Dispatcher} {req : OfficeRequest} {out : List Outgoing}

theorem routes_served (h : d.serve own req = some (d', out)) (n topic : String) :
    d'.Routes own n topic ↔ ∃ key b,
      req.onSlot ⟨topic, own⟩ key (d.subscriptions.slot ⟨topic, own⟩ key) = some b ∧ b.nodeId = n := by
  unfold Routes
  simp only [slot_serve h]

theorem SameSubs.agree (h : SameSubs d d') : d'.Agree own ↔ d.Agree own := by
  unfold Agree Routes
  simp only [h.registry, h.subsOf]

/-- Where only the registry loses subscriptions, the tables agree as long as it loses none of
this postoffice. -/
theorem agree_of_lost {K : String → Prop} (hsubs : ∀ n, d'.subsOf n = d.subsOf n)
    (hroutes : ∀ n topic, d'.Routes own n topic ↔ d.Routes own n topic ∧ K n) (ha : d.Agree own) :
    d'.Agree own ↔ ∀ n topic, d.Routes own n topic → K n := by
  constructor
  · intro ha' n topic hr
    have hmem : topic ∈ d'.subsOf n := by
      rw [hsubs]
      exact (ha n topic).mpr hr
    exact ((hroutes n topic).mp ((ha' n topic).mp hmem)).2
  · intro hkept n topic
    rw [hsubs, hroutes, ha n topic]
    exact ⟨fun hr => ⟨hr, hkept n topic hr⟩, fun hr => hr.1⟩

theorem agree_removeSubs {nodeId : String} (h : d.serve own (.removeSubs nodeId) = some (d', out))
    (ha : d.Agree own) : d'.Agree own ↔ ∀ topic, ¬ d.Routes own nodeId topic := by
  have hsubs : ∀ n, d'.subsOf n = d.subsOf n := by
    intro n
    rw [← eq_of_serve h]
    rfl
  have hroutes : ∀ n topic, d'.Routes own n topic ↔ d.Routes own n topic ∧ n ≠ nodeId := by
    intro n topic
    rw [routes_served h]
    simp only [OfficeRequest.onSlot, Option.filter_eq_some_iff]
    constructor
    · rintro ⟨key, b, ⟨hb, hne⟩, rfl⟩
      exact ⟨⟨key, b, hb, rfl⟩, by simpa using hne⟩
    · rintro ⟨⟨key, b, hb, rfl⟩, hne⟩
      exact ⟨key, b, ⟨hb, by simpa using hne⟩, rfl⟩
  rw [agree_of_lost hsubs hroutes ha]
  constructor
  · exact fun hk topic hr => hk nodeId topic hr rfl
  · rintro hnone n topic hr rfl
    exact hnone topic hr

theorem agree_nodeRemoved {e : String} (h : d.serve own (.nodeRemoved e) = some (d', out))
    (ha : d.Agree own) : d'.Agree own ↔ (e = own → ∀ n topic, ¬ d.Routes own n topic) := by
  have hsubs : ∀ n, d'.subsOf n = d.subsOf n := by
    intro n
    rw [← eq_of_serve h]
    rfl
  have hroutes : ∀ n topic, d'.Routes own n topic ↔ d.Routes own n topic ∧ own ≠ e := by
    intro n topic
    rw [routes_served h]
    simp only [OfficeRequest.onSlot, Option.filter_eq_some_iff]
    -- an entry of this postoffice has its endpoint
    have hown : ∀ {key b}, d.subscriptions.slot ⟨topic, own⟩ key = some b → b.endpoint = own :=
      fun hb => congrArg TopicKey.endpoint (d.keyed.keys _ _ _ hb).1
    constructor
    · rintro ⟨key, b, ⟨hb, hne⟩, rfl⟩
      rw [hown hb] at hne
      exact ⟨⟨key, b, hb, rfl⟩, by simpa using hne⟩
    · rintro ⟨⟨key, b, hb, rfl⟩, hne⟩
      refine ⟨key, b, ⟨hb, ?_⟩, rfl⟩
      rw [hown hb]
      simpa using hne
  rw [agree_of_lost hsubs hroutes ha]
  constructor
  · exact fun hk he n topic hr => hk n topic hr he.symm
  · exact fun hnone n topic hr he => hnone he.symm n topic hr

variable {sub : Subscription}

theorem mem_subsOf_added (h : d.serve own (.register sub) = some (d', out))
    (ho : sub.routed.endpoint = own) (hadd : ¬ sub.routed.deleting) (n topic : String) :
    topic ∈ d'.subsOf n ↔
      topic ∈ d.subsOf n ∨ (sub.routed.nodeId = n ∧ sub.routed.topic = topic) := by
  rw [← eq_of_serve h, registered_subsOf]
  by_cases hn : sub.routed.nodeId = n
  · simp [ho, hn, hadd, Std.ExtTreeMap.mem_insert, or_comm]
  · simp [hn]

theorem routes_added (h : d.serve own (.register sub) = some (d', out))
    (ho : sub.routed.endpoint = own) (hadd : ¬ sub.routed.deleting) (n topic : String) :
    d'.Routes own n topic ↔ d.Routes own n topic ∨
      (sub.routed.nodeId = n ∧ sub.routed.topic = topic ∧
        d.subscriptions.slot sub.routed.topicKey sub.routed.key = none) := by
  have hk : sub.routed.topicKey = ⟨sub.routed.topic, own⟩ := by rw [← ho]; rfl
  rw [routes_served h]
  simp only [OfficeRequest.onSlot, hadd, Bool.false_eq_true, if_false, hk, TopicKey.mk.injEq, and_true]
  constructor
  · rintro ⟨key, b, hb, rfl⟩
    split at hb
    · next hkey =>
      obtain ⟨rfl, rfl⟩ := hkey
      cases hs : d.subscriptions.slot ⟨sub.routed.topic, own⟩ sub.routed.key with
      | none =>
        rw [hs] at hb
        cases hb
        exact .inr ⟨rfl, rfl, rfl⟩
      | some b' =>
        rw [hs] at hb
        cases hb
        exact .inl ⟨_, b', hs, rfl⟩
    · exact .inl ⟨key, b, hb, rfl⟩
  · rintro (⟨key, b, hb, rfl⟩ | ⟨rfl, rfl, hs⟩)
    · refine ⟨key, b, ?_, rfl⟩
      rw [hb]
      split <;> rfl
    · refine ⟨sub.routed.key, sub.routed, ?_, rfl⟩
      rw [hs]
      simp

theorem agree_added (h : d.serve own (.register sub) = some (d', out))
    (ho : sub.routed.endpoint = own) (hadd : ¬ sub.routed.deleting) (ha : d.Agree own) :
    d'.Agree own ↔ d.subscriptions.slot sub.routed.topicKey sub.routed.key = none ∨
      d.Routes own sub.routed.nodeId sub.routed.topic := by
  have hsubs := mem_subsOf_added h ho hadd
  have hroutes := routes_added h ho hadd
  constructor
  · intro ha'
    have hmem := (hsubs sub.routed.nodeId sub.routed.topic).mpr (.inr ⟨rfl, rfl⟩)
    rcases (hroutes _ _).mp ((ha' _ _).mp hmem) with hr | ⟨-, -, hs⟩
    · exact .inr hr
    · exact .inl hs
  · intro hok n topic
    rw [hsubs, hroutes, ha n topic]
    constructor
    · rintro (hr | ⟨rfl, rfl⟩)
      · exact .inl hr
      · rcases hok with hs | hr
        · exact .inr ⟨rfl, rfl, hs⟩
        · exact .inl hr
    · rintro (hr | ⟨rfl, rfl, -⟩)
      · exact .inl hr
      · exact .inr ⟨rfl, rfl⟩

theorem mem_subsOf_deleted (h : d.serve own (.register sub) = some (d', out))
    (ho : sub.routed.endpoint = own) (hdel : sub.routed.deleting) (n topic : String) :
    topic ∈ d'.subsOf n ↔
      topic ∈ d.subsOf n ∧ ¬ (sub.routed.nodeId = n ∧ sub.routed.topic = topic) := by
  rw [← eq_of_serve h, registered_subsOf]
  by_cases hn : sub.routed.nodeId = n
  · simp [ho, hn, hdel, Std.ExtTreeMap.mem_erase, and_comm]
  · simp [hn]

theorem routes_other (h : d.serve own (.register sub) = some (d', out))
    (ho : sub.routed.endpoint = own) {topic : String} (ht : sub.routed.topic ≠ topic) (n : String) :
    d'.Routes own n topic ↔ d.Routes own n topic := by
  have hk : sub.routed.topicKey = ⟨sub.routed.topic, own⟩ := by rw [← ho]; rfl
  rw [routes_served h]
  simp only [OfficeRequest.onSlot, hk, TopicKey.mk.injEq, ht, false_and, if_false]
  rfl

theorem routes_deleted (h : d.serve own (.register sub) = some (d', out))
    (ho : sub.routed.endpoint = own) (hdel : sub.routed.deleting) (n : String) :
    d'.Routes own n sub.routed.topic ↔ d.RoutesBeside sub.routed n := by
  have hk : sub.routed.topicKey = ⟨sub.routed.topic, own⟩ := by rw [← ho]; rfl
  rw [routes_served h]
  simp only [OfficeRequest.onSlot, hk, true_and, hdel, if_true]
  constructor
  · rintro ⟨key, b, hb, rfl⟩
    split at hb
    · cases hb
    · next hkey => exact ⟨key, b, fun h => hkey h.symm, by rw [hk]; exact hb, rfl⟩
  · rintro ⟨key, b, hkey, hb, rfl⟩
    rw [hk] at hb
    exact ⟨key, b, by rw [if_neg (fun h => hkey h.symm), hb], rfl⟩

theorem agree_deleted (h : d.serve own (.register sub) = some (d', out))
    (ho : sub.routed.endpoint = own) (hdel : sub.routed.deleting) (ha : d.Agree own) :
    d'.Agree own ↔ d.LastOfNode sub.routed := by
  have hk : sub.routed.topicKey = ⟨sub.routed.topic, own⟩ := by rw [← ho]; rfl
  have hsubs := mem_subsOf_deleted h ho hdel
  have hsame := routes_deleted h ho hdel
  constructor
  · intro ha'
    refine ⟨fun hb => ?_, fun b hb hne => ?_⟩
    · have hmem := (ha' _ _).mpr ((hsame _).mpr hb)
      exact ((hsubs _ _).mp hmem).2 ⟨rfl, rfl⟩
    · rw [hk] at hb
      have hmem := (ha b.nodeId sub.routed.topic).mpr ⟨_, b, hb, rfl⟩
      exact (hsame _).mp ((ha' _ _).mp ((hsubs _ _).mpr ⟨hmem, fun h => hne h.1.symm⟩))
  · intro hl n topic
    rw [hsubs, ha n topic]
    by_cases ht : sub.routed.topic = topic
    · subst ht
      rw [hsame]
      constructor
      · rintro ⟨⟨key, b, hb, rfl⟩, hne⟩
        by_cases hkey : key = sub.routed.key
        · subst hkey
          exact hl.other b (by rw [hk]; exact hb) fun h => hne ⟨h.symm, rfl⟩
        · exact ⟨key, b, hkey, by rw [hk]; exact hb, rfl⟩
      · rintro hb
        refine ⟨?_, ?_⟩
        · obtain ⟨key, b, -, hb, hn⟩ := hb
          exact ⟨key, b, by rw [← hk]; exact hb, hn⟩
        · rintro ⟨rfl, -⟩
          exact hl.last hb
    · rw [routes_other h ho ht]
      simp [ht]

theorem agree_elsewhere (h : d.serve own (.register sub) = some (d', out))
    (ho : sub.routed.endpoint ≠ own) : d'.Agree own ↔ d.Agree own := by
  have hsubs : ∀ n, d'.subsOf n = d.subsOf n := by
    intro n
    rw [← eq_of_serve h, registered_subsOf]
    simp [ho]
  have hroutes : ∀ n topic, d'.Routes own n topic ↔ d.Routes own n topic := by
    intro n topic
    rw [routes_served h]
    simp only [OfficeRequest.onSlot, Subscription.topicKey, TopicKey.mk.injEq, ho, and_false, false_and,
      if_false]
    rfl
  unfold Agree
  simp only [hsubs, hroutes]

/-- One turn of the loop keeps the tables together exactly where it is harmless. -/
theorem agree_served (h : d.serve own req = some (d', out)) (ha : d.Agree own) :
    d'.Agree own ↔ d.Harmless own req := by
  have hsame : SameSubs d d' → (d'.Agree own ↔ True) := fun hs => iff_true_intro (hs.agree.mpr ha)
  cases req with
  | nodeAdded =>
    apply hsame
    rw [← eq_of_serve h]
    exact ⟨rfl, fun _ => rfl⟩
  | nodeRemoved e => exact agree_nodeRemoved h ha
  | register sub =>
    unfold Harmless
    by_cases ho : sub.routed.endpoint = own
    · by_cases hdel : sub.routed.deleting = true
      · rw [agree_deleted h ho hdel ha]
        simp [ho, hdel]
      · rw [agree_added h ho hdel ha]
        simp [ho, hdel]
    · rw [agree_elsewhere h ho]
      simp [ho, ha]
  | removeSubs n => exact agree_removeSubs h ha
  | receiverStart name =>
    apply hsame
    rw [← eq_of_serve h]
    exact .receiverStart d name
  | receiverEnd name =>
    obtain ⟨d₁, hd, heq⟩ := Option.map_eq_some_iff.mp h
    cases heq
    exact hsame (.receiverEnd hd)
  | mail mail =>
    apply hsame
    cases mail with
    | topic name =>
      rw [← eq_of_serve h]
      exact .topicMail d name
    | trans mt =>
      rw [← eq_of_serve h]
      exact .transMail d mt

theorem serve_of_turn (h : d.turn own req = some d') : ∃ out, d.serve own req = some (d', out) := by
  obtain ⟨⟨d₁, out⟩, hs, rfl⟩ := Option.map_eq_some_iff.mp h
  exact ⟨out, hs⟩

theorem agree_start : start.Agree own := by
  intro n topic
  constructor
  · intro h
    simp [MailRoom.subsOf, start, MailRoom.empty] at h
  · rintro ⟨key, b, hb, -⟩
    simp [start, SubscriptionRegistry.slot, ExtMap.slot, SubscriptionRegistry.empty] at hb

theorem posted_listens {mail mail' : Mail} {n : String} (h : d.serve own (.mail mail) = some (d', out))
    (hp : .posted n mail' ∈ out) : mail.routed ∈ d.subsOf n := by
  cases mail with
  | topic name =>
    rw [← out_of_serve h] at hp
    obtain ⟨⟨nk, ch⟩, hch, hx⟩ := List.mem_flatMap.mp hp
    rw [Std.ExtTreeMap.mem_toList_iff_getElem?_eq_some] at hch
    split at hx
    · next hs =>
      obtain rfl := ReceiverAsync.node_of_posts hx
      rw [MailRoom.subsOf_of_getElem? hch]
      exact hs
    · cases hx
  | trans mt =>
    rw [← out_of_serve h] at hp
    unfold transMail at hp
    dsimp only at hp
    split at hp
    · cases hp
    · next nk nc hloop =>
      obtain ⟨hnc, hs, -⟩ := MailRoom.transLoop_found hloop
      obtain rfl := ReceiverAsync.node_of_posts hp
      rw [MailRoom.subsOf_of_getElem? hnc]
      exact hs

/-- After harmless requests the tables agree, a mail is put only into the channel of a node that
the registry routes the topic to, and the next request keeps the tables together if and only if
it is harmless. -/
theorem tables_agree (h : Reaches (turn own) (Harmless own) start d) :
    d.Agree own ∧ (∀ n topic, d.Routes own n topic → n ∈ d.listeners) ∧
      (∀ mail d' out n, d.serve own (.mail mail) = some (d', out) → .posted n mail ∈ out →
        d.Routes own n mail.routed) ∧
      ∀ req d', d.turn own req = some d' → (d'.Agree own ↔ d.Harmless own req) := by
  have ha : d.Agree own := by
    apply h.invariant agree_start
    intro d req d' ha hok hstep
    obtain ⟨out, hs⟩ := serve_of_turn hstep
    exact (agree_served hs ha).mpr hok
  refine ⟨ha, fun n topic hr => ?_, fun mail d' out n hs hp => ?_, fun req d' hstep => ?_⟩
  · have hmem := (ha n topic).mpr hr
    cases hl : d.listeners[n]? with
    | none =>
      rw [MailRoom.subsOf_of_none hl] at hmem
      simp at hmem
    | some ch => exact ExtMap.mem_of_getElem? hl
  · exact (ha n mail.routed).mp (posted_listens hs hp)
  · obtain ⟨out, hs⟩ := serve_of_turn hstep
    exact agree_served hs ha

/-- A worker that subscribed once. -/
theorem tables_agree_subscribed :
    (((start.receiverStart "w").1.registerSubscription "p" ⟨0, "w", "t", "T", "p", false⟩).1).Agree "p" :=
  (tables_agree (.tail (.tail .refl ⟨.receiverStart "w", trivial, rfl⟩)
    ⟨.register ⟨0, "w", "t", "T", "p", false⟩, fun _ => .inl (by decide +kernel), rfl⟩)).1

/-- The removal of the subscriptions of a node leaves the `Subs` of its listener, and a mail still
goes there. -/
theorem tables_disagree : ∃ d, Reaches (turn "p") (fun _ _ => True) start d ∧
    "T" ∈ d.subsOf "w" ∧ ¬ d.Routes "p" "w" "T" ∧ (d.topicMail "T").2 = [.posted "w" (.topic "T")] := by
  obtain ⟨d, hr, hsubs, hlist, hpost⟩ := exists_reaches_of_checkedRun (turn "p") (fun _ _ => True)
    (fun d => d.subscriptions.subs = [] ∧ "T" ∈ d.subsOf "w" ∧
      (d.topicMail "T").2 = [.posted "w" (.topic "T")]) start
    [.receiverStart "w", .register ⟨0, "w", "t", "T", "p", false⟩, .removeSubs "w"] (by decide +kernel)
  refine ⟨d, hr, hlist, ?_, hpost⟩
  rintro ⟨key, b, hb, -⟩
  obtain ⟨hk, rfl⟩ := d.keyed.keys _ _ _ hb
  have hmem := (SubscriptionRegistry.mem_subs b d.keyed).mpr (by rw [hk]; exact hb)
  rw [hsubs] at hmem
  cases hmem

end Dispatcher

end Tarantula
