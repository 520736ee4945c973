import Tarantula.Disconnection

/-! A worker that gives up one of its topics. It keeps its stream and its other subscriptions as
long as no postoffice sends a `Disconnect` with its NodeId. -/

namespace Tarantula

namespace Postal

variable {c c' c₀ c₁ : Postal} {members : List String} {unreg u : Subscription} {p n : String} {g : Nat}

/-- The requests come of the unsubscription, and the listener of the worker has the channels of
its stream. -/
structure Unsubscribing (unreg : Subscription) (p n : String) (g : Nat) (c : Postal) : Prop where
  flight : ∀ m ∈ c.flight, m.2.OfUnsubscribe unreg
  channel : ∃ q, (c.offices p).channelOf n = some (g, q)

theorem channelOf_step {e : String} {req : OfficeRequest} {d : Dispatcher} {out : List Outgoing}
    (hdel : unreg.deleting = true) (hreq : req.OfUnsubscribe unreg)
    (hserve : (c.offices e).serve e req = some (d, out))
    (hoff : c'.offices = fun e' => if e' = e then d else c.offices e') (e' m : String) :
    (c'.offices e').channelOf m =
      if e' = e ∧ req = .receiverEnd m then
        ((c.offices e').channelOf m).map fun (g, q) => (g, { q with buf := q.buf ++ [m] })
      else (c.offices e').channelOf m := by
  rw [hoff]
  by_cases he : e' = e
  · subst he
    simp only [if_true, true_and]
    exact Dispatcher.channelOf_served hdel hserve hreq m
  · simp only [he, if_false, false_and]

theorem served_out {e : String} {req : OfficeRequest} {d d' : Dispatcher} {out : List Outgoing}
    (members : List String) (hdel : unreg.deleting = true) (hreq : req.OfUnsubscribe unreg)
    (hserve : d.serve e req = some (d', out)) :
    out.filterMap (·.receiving e) = [] ∧
      ∀ m ∈ out.flatMap (·.messages members e), ∃ n, m.2 = .receiverEnd n := by
  obtain ⟨pools, rfl, -⟩ := Dispatcher.out_ofUnsubscribe hdel hserve hreq
  constructor
  · rw [List.filterMap_eq_nil_iff]
    intro o ho
    obtain ⟨pool, -, ho⟩ := List.mem_flatMap.mp ho
    unfold RpcConnPool.release at ho
    split at ho
    · cases List.mem_singleton.mp ho
      rfl
    · cases ho
  · intro m hm
    obtain ⟨pool, -, -, rfl⟩ := mem_released.mp hm
    exact ⟨_, rfl⟩

theorem Unsubscribing.step (h : Unsubscribing unreg p n g c) (hdel : unreg.deleting = true)
    (hs : SettlingStep members c c') : Unsubscribing unreg p n g c' := by
  obtain ⟨q, hq⟩ := h.channel
  cases hs with
  | served i e req d out hi hserve hoff _ hflight _ =>
    have hreq := h.flight _ (List.mem_of_getElem? hi)
    refine ⟨fun m hm => ?_, ?_⟩
    · rw [hflight] at hm
      rcases List.mem_append.mp hm with hm | hm
      · exact h.flight m (List.mem_of_mem_eraseIdx hm)
      · obtain ⟨n', hn⟩ := (served_out members hdel hreq hserve).2 m hm
        rw [hn]
        trivial
    · rw [channelOf_step hdel hreq hserve hoff, hq]
      split
      · exact ⟨_, rfl⟩
      · exact ⟨q, rfl⟩
  | hungUp s q' _ hchan _ _ hchannels hstream _ hflight _ =>
    refine ⟨fun m hm => ?_, ?_⟩
    · rw [hflight] at hm
      rcases List.mem_append.mp hm with hm | hm
      · exact h.flight m hm
      · obtain ⟨e, -, rfl⟩ := List.mem_map.mp hm
        trivial
    · by_cases hsame : p = s.office ∧ n = s.nodeId
      · obtain ⟨rfl, rfl⟩ := hsame
        rw [hq] at hchan
        cases hchan
        exact hstream
      · rw [hchannels p n (not_and_or.mp hsame)]
        exact ⟨q, hq⟩
  | read _ hchannels _ hflight _ =>
    refine ⟨fun m hm => ?_, q, ?_⟩
    · rw [hflight] at hm
      exact h.flight m hm
    · rw [hchannels, hq]

/-- A `Disconnect` for the worker is on its way, or in the channel of its stream, or has ended it. -/
def Ending (p n : String) (g : Nat) (c : Postal) : Prop :=
  (p, .receiverEnd n) ∈ c.sent → (p, .receiverEnd n) ∈ c.flight ∨
    (∃ q, (c.offices p).channelOf n = some (g, q) ∧ q.buf ≠ []) ∨ ⟨p, n, g⟩ ∉ c.streams

theorem Ending.step (h : Ending p n g c) (hu : Unsubscribing unreg p n g c)
    (hdel : unreg.deleting = true) (hs : SettlingStep members c c') : Ending p n g c' := by
  intro hsent'
  obtain ⟨q₀, hq₀⟩ := hu.channel
  cases hs with
  | served i e req d out hi hserve hoff hstreams hflight hsent =>
    have hreq := hu.flight _ (List.mem_of_getElem? hi)
    have hchan := channelOf_step hdel hreq hserve hoff p n
    rw [hsent] at hsent'
    rcases List.mem_append.mp hsent' with hm | hm
    · rcases h hm with hf | ⟨q, hq, hne⟩ | hout
      · rcases (mem_cons_eraseIdx hi).mp hf with heq | hf
        · -- it is the one that is served now
          cases heq
          refine .inr (.inl ⟨{ q₀ with buf := q₀.buf ++ [n] }, ?_, by simp⟩)
          rw [hchan, if_pos ⟨rfl, rfl⟩, hq₀]
          rfl
        · exact .inl (hflight ▸ List.mem_append_left _ hf)
      · refine .inr (.inl ?_)
        rw [hchan, hq]
        split
        · exact ⟨_, rfl, by simp⟩
        · exact ⟨q, rfl, hne⟩
      · refine .inr (.inr ?_)
        rw [hstreams, (served_out members hdel hreq hserve).1, List.append_nil]
        exact hout
    · exact .inl (hflight ▸ List.mem_append_right _ hm)
  | hungUp s q _ hchan _ _ hchannels _ hstreams hflight hsent =>
    rw [hsent] at hsent'
    rcases List.mem_append.mp hsent' with hm | hm
    · by_cases heq : s = ⟨p, n, g⟩
      · subst heq
        refine .inr (.inr ?_)
        rw [hstreams]
        simp
      · have hne : p ≠ s.office ∨ n ≠ s.nodeId := by
          rw [← not_and_or]
          rintro ⟨rfl, rfl⟩
          rw [hq₀] at hchan
          cases hchan
          exact heq rfl
        rcases h hm with hf | hq | hout
        · exact .inl (hflight ▸ List.mem_append_left _ hf)
        · exact .inr (.inl (by rw [hchannels p n hne]; exact hq))
        · refine .inr (.inr ?_)
          rw [hstreams]
          exact fun hmem => hout (List.mem_filter.mp hmem).1
    · obtain ⟨e, -, heq⟩ := List.mem_map.mp hm
      cases heq
  | read _ hchannels hstreams hflight hsent =>
    rw [hchannels, hstreams, hflight]
    rw [hsent] at hsent'
    exact h hsent'

/-- The worker has its stream and its subscription. -/
structure Undisturbed (p n : String) (g : Nat) (u : Subscription) (members : List String) (c : Postal) :
    Prop where
  stream : ⟨p, n, g⟩ ∈ c.streams
  listens : u.topic ∈ (c.offices p).subsOf n
  holds : ∀ e ∈ members, (c.offices e).subscriptions.Holds u

/-- Nothing is about to end the stream of the worker. -/
structure Calm (p n : String) (g : Nat) (u : Subscription) (members : List String) (c : Postal) :
    Prop extends Undisturbed p n g u members c where
  flight : ∀ m ∈ c.flight, m.2 ≠ .receiverEnd n ∧ m.2 ≠ .removeSubs n
  quiet : ∀ e g' q, (c.offices e).channelOf n = some (g', q) → q.receive = none

theorem Undisturbed.same (h : Undisturbed p n g u members c) (hstream : ⟨p, n, g⟩ ∈ c'.streams)
    (hsame : ∀ e, Dispatcher.SameSubs (c.offices e) (c'.offices e)) :
    Undisturbed p n g u members c' where
  stream := hstream
  listens := by
    rw [(hsame p).subsOf]
    exact h.listens
  holds e he := by
    rw [(hsame e).registry]
    exact h.holds e he

/-- A step leaves the worker calm or sends a `Disconnect` for it. -/
theorem Calm.step (h : Calm p n g u members c) (hu : Unsubscribing unreg p n g c)
    (hdel : unreg.deleting = true) (hn : u.nodeId = n) (ht : unreg.routed.topic ≠ u.topic)
    (hs : SettlingStep members c c') :
    (∃ e, (e, .receiverEnd n) ∈ c'.sent) ∨ Calm p n g u members c' := by
  cases hs with
  | served i e req d out hi hserve hoff hstreams hflight hsent =>
    have hreq := hu.flight _ (List.mem_of_getElem? hi)
    have hcalm := h.flight _ (List.mem_of_getElem? hi)
    obtain ⟨hstart, hends⟩ := served_out members hdel hreq hserve
    by_cases hnew : ∃ e', (e', .receiverEnd n) ∈ out.flatMap (·.messages members e)
    · obtain ⟨e', he'⟩ := hnew
      exact .inl ⟨e', hsent ▸ List.mem_append_right _ he'⟩
    · refine .inr ⟨⟨?_, ?_, fun e' he' => ?_⟩, fun m hm => ?_, fun e' g' q hq => ?_⟩
      · rw [hstreams, hstart, List.append_nil]
        exact h.stream
      · rw [hoff]
        dsimp only
        split
        · next hp =>
          subst hp
          exact Dispatcher.listens_served hserve hreq ht h.listens
        · exact h.listens
      · rw [hoff]
        dsimp only
        split
        · next hp =>
          subst hp
          refine Dispatcher.holds_served hserve hreq ?_ ht (h.holds _ he')
          rw [hn]
          exact hcalm.2
        · exact h.holds e' he'
      · rw [hflight] at hm
        rcases List.mem_append.mp hm with hm | hm
        · exact h.flight m (List.mem_of_mem_eraseIdx hm)
        · obtain ⟨n', hn'⟩ := hends m hm
          refine ⟨fun hend => hnew ⟨m.1, ?_⟩, ?_⟩
          · rw [← hend]
            exact hm
          · rw [hn']
            simp
      · rw [channelOf_step hdel hreq hserve hoff, if_neg fun hc => hcalm.1 hc.2] at hq
        exact h.quiet e' g' q hq
  | hungUp s q _ hchan hpending hsame hchannels _ hstreams hflight _ =>
    -- the stream that ends is of another node
    have hne : n ≠ s.nodeId := by
      rintro rfl
      exact hpending (h.quiet _ _ q hchan)
    refine .inr ⟨h.toUndisturbed.same ?_ hsame, fun m hm => ?_, fun e g' q' hq => ?_⟩
    · rw [hstreams, List.mem_filter]
      refine ⟨h.stream, ?_⟩
      simp only [ne_eq, decide_not, Bool.not_eq_true', decide_eq_false_iff_not]
      rintro rfl
      exact hne rfl
    · rw [hflight] at hm
      rcases List.mem_append.mp hm with hm | hm
      · exact h.flight m hm
      · obtain ⟨e, -, rfl⟩ := List.mem_map.mp hm
        simp only [ne_eq, reduceCtorEq, not_false_eq_true, OfficeRequest.removeSubs.injEq, true_and]
        exact fun h => hne h.symm
    · rw [hchannels e n (.inr hne)] at hq
      exact h.quiet e g' q' hq
  | read hsame hchannels hstreams hflight _ =>
    refine .inr ⟨h.toUndisturbed.same (hstreams ▸ h.stream) hsame, hflight ▸ h.flight, ?_⟩
    simp only [hchannels]
    exact h.quiet

/-- Only the deletions are on their way, and no postoffice has a live pool to release for them. -/
structure NothingLive (unreg : Subscription) (members : List String) (c : Postal) : Prop where
  flight : ∀ m ∈ c.flight, m.2 = .register unreg ∧ m.1 ∈ members
  quiet : ∀ e m g q, (c.offices e).channelOf m = some (g, q) → q.receive = none
  pools : ∀ e ∈ members, ∀ pool,
    ((c.offices e).subscriptions.del unreg.routed).2 = some pool → pool.live = false
  sent : ∀ e m, (e, .receiverEnd m) ∉ c.sent

theorem NothingLive.step (h : NothingLive unreg members c) (hdel : unreg.deleting = true)
    (hs : SettlingStep members c c') : NothingLive unreg members c' := by
  cases hs with
  | served i e req d out hi hserve hoff hstreams hflight hsent =>
    obtain ⟨hreq, he⟩ := h.flight _ (List.mem_of_getElem? hi)
    dsimp only at hreq he
    subst hreq
    have hof : (OfficeRequest.register unreg).OfUnsubscribe unreg := rfl
    have hout : out.flatMap (·.messages members e) = [] := by
      obtain ⟨pools, rfl, -, hpools⟩ := Dispatcher.out_ofUnsubscribe hdel hserve hof
      rw [List.eq_nil_iff_forall_not_mem]
      intro m hm
      obtain ⟨pool, hpool, hlive, -⟩ := mem_released.mp hm
      rw [hpools rfl, Option.mem_toList] at hpool
      rw [h.pools e he pool hpool] at hlive
      cases hlive
    rw [hout, List.append_nil] at hflight hsent
    refine ⟨fun m hm => ?_, fun e' m g q hq => ?_, fun e' he' pool hpool => ?_, fun e' m => ?_⟩
    · rw [hflight] at hm
      exact h.flight m (List.mem_of_mem_eraseIdx hm)
    · rw [channelOf_step hdel hof hserve hoff, if_neg (by simp)] at hq
      exact h.quiet e' m g q hq
    · rw [hoff] at hpool
      dsimp only at hpool
      split at hpool
      · rw [← Dispatcher.eq_of_serve hserve, Dispatcher.registered_subscriptions,
          if_pos ((unreg.routed_deleting).trans hdel), SubscriptionRegistry.del_del] at hpool
        cases hpool
      · exact h.pools e' he' pool hpool
    · rw [hsent]
      exact h.sent e' m
  | hungUp s q _ hchan hpending _ _ _ _ _ _ => exact absurd (h.quiet _ _ _ q hchan) hpending
  | read hsame hchannels _ hflight hsent =>
    refine ⟨hflight ▸ h.flight, ?_, ?_, hsent ▸ h.sent⟩
    · simp only [hchannels]
      exact h.quiet
    · simp only [(hsame _).registry]
      exact h.pools

structure Quiet (c : Postal) : Prop where
  flight : c.flight = []
  sent : c.sent = []
  channels : ∀ e m g q, (c.offices e).channelOf m = some (g, q) → q.receive = none

/-- All has been delivered, and no running stream has still to read that it is to end. -/
structure Settled (c : Postal) : Prop where
  flight : c.flight = []
  streams : ∀ s ∈ c.streams, ∀ q,
    (c.offices s.office).channelOf s.nodeId = some (s.stream, q) → q.receive = none

/-- After an unsubscription of a worker that receives at `p` has been processed with all that comes
of it: its stream has ended where a `Disconnect` was sent for it there; where none was sent for its
NodeId, it has its stream and its other subscription; and none is sent where no postoffice has a
connection in the pool that the deletion releases. -/
theorem unsubscribe_leaves_rest {t u : Subscription} (hquiet : c₀.Quiet)
    (hch : ∃ q, (c₀.offices p).channelOf n = some (g, q))
    (hu : Undisturbed p n g (u.registeredAt p) members c₀) (hn : u.nodeId = n)
    (ht : (t.registeredAt p).topic ≠ (u.registeredAt p).topic)
    (h₁ : c₀.step (.unsubscribe p t members) = some c₁) (h : Reaches step (·.Settling members ·) c₁ c)
    (hend : c.Settled) :
    ((p, .receiverEnd n) ∈ c.sent → ⟨p, n, g⟩ ∉ c.streams) ∧
      ((∀ e, (e, .receiverEnd n) ∉ c.sent) → Undisturbed p n g (u.registeredAt p) members c) ∧
      ((∀ e ∈ members, ∀ pool,
          ((c₀.offices e).subscriptions.del (t.registeredAt p)).2 = some pool → pool.live = false) →
        Undisturbed p n g (u.registeredAt p) members c) := by
  have hdel : ({ t with endpoint := p, deleting := true } : Subscription).deleting = true := rfl
  have hsame := t.same_registeredAt p true
  have htopic : ({ t with endpoint := p, deleting := true } : Subscription).routed.topic ≠
      (u.registeredAt p).topic := by
    rw [hsame.2.2.1]
    exact ht
  have hnode : (u.registeredAt p).nodeId = n := by
    rw [Subscription.registeredAt, Subscription.routed_nodeId]
    exact hn
  cases h₁
  have hflight : ∀ m ∈ c₀.flight ++ runUnregister members { t with endpoint := p },
      m.2 = .register { t with endpoint := p, deleting := true } ∧ m.1 ∈ members := by
    intro m hm
    rw [hquiet.flight, List.nil_append] at hm
    obtain ⟨e, he, rfl⟩ := List.mem_map.mp hm
    exact ⟨rfl, he⟩
  have hsent : ∀ e m, (e, .receiverEnd m) ∉ c₀.sent ++ runUnregister members { t with endpoint := p } := by
    intro e m hm
    rw [hquiet.sent, List.nil_append] at hm
    obtain ⟨e', -, heq⟩ := List.mem_map.mp hm
    cases heq
  have hrun : Unsubscribing { t with endpoint := p, deleting := true } p n g c ∧ Ending p n g c ∧
      ((∃ e, (e, .receiverEnd n) ∈ c.sent) ∨ Calm p n g (u.registeredAt p) members c) := by
    apply h.invariant
    · refine ⟨⟨fun m hm => ?_, hch⟩, fun hm => absurd hm (hsent p n),
        .inr ⟨⟨hu.stream, hu.listens, hu.holds⟩, fun m hm => ?_, ?_⟩⟩
      · rw [(hflight m hm).1]
        rfl
      · rw [(hflight m hm).1]
        simp
      · exact fun e g' q hq => hquiet.channels e n g' q hq
    · rintro s ev s' ⟨hun, hending, hcalm⟩ hok hstep
      have hs := settlingStep hok hstep
      refine ⟨hun.step hdel hs, hending.step hun hdel hs, ?_⟩
      rcases hcalm with ⟨e, he⟩ | hcalm
      · exact .inl ⟨e, hs.sent_subset he⟩
      · exact hcalm.step hun hdel hnode htopic hs
  obtain ⟨-, hending, hcalm⟩ := hrun
  have hfree : (∀ e, (e, .receiverEnd n) ∉ c.sent) → Undisturbed p n g (u.registeredAt p) members c := by
    intro hnone
    rcases hcalm with ⟨e, he⟩ | hcalm
    · exact absurd he (hnone e)
    · exact hcalm.toUndisturbed
  refine ⟨fun hm hmem => ?_, hfree, fun hpools => hfree ?_⟩
  · rcases hending hm with hf | ⟨q, hq, hbuf⟩ | hout
    · rw [hend.flight] at hf
      cases hf
    · exact Chan.receive_ne_none hbuf (hend.streams _ hmem q hq)
    · exact hout hmem
  · have hlive : NothingLive { t with endpoint := p, deleting := true } members c := by
      apply h.invariant
      · refine ⟨hflight, hquiet.channels, fun e he pool hpool => ?_, hsent⟩
        refine hpools e he pool ?_
        rw [← SubscriptionRegistry.del_congr hsame.topicKey hsame.key]
        exact hpool
      · exact fun s ev s' hl hok hstep => hl.step hdel (settlingStep hok hstep)
    exact fun e => hlive.sent e n

def twoTopics : Dispatcher :=
  (((Dispatcher.start.receiverStart "w").1.registerSubscription "p" ⟨0, "w", "t", "T", "p", false⟩).1
    |>.registerSubscription "p" ⟨0, "w", "t", "U", "p", false⟩).1

theorem quiet_of_toList {d : Dispatcher} (h : ∀ x ∈ d.listeners.toList, x.2.q.receive.isNone = true)
    {m : String} {q : Chan String} (hq : d.channelOf m = some (g, q)) : q.receive = none := by
  obtain ⟨ch, hch, heq⟩ := Option.map_eq_some_iff.mp hq
  cases heq
  rw [← Std.ExtTreeMap.mem_toList_iff_getElem?_eq_some] at hch
  simpa using h _ hch

/-- No pool has a connection. -/
theorem unsubscribe_leaves_rest_unconnected : ∃ c₀ c₁ c : Postal,
    (c₀.Quiet ∧ (c₀.offices "p").subscriptions.Holds ⟨0, "w", "t", "T", "p", false⟩) ∧
    c₀.step (.unsubscribe "p" ⟨0, "w", "t", "T", "", false⟩ ["p"]) = some c₁ ∧
    Reaches step (·.Settling ["p"] ·) c₁ c ∧ c.flight = [] ∧
    Undisturbed "p" "w" 1 ⟨0, "w", "t", "U", "p", false⟩ ["p"] c ∧
    ¬ (c.offices "p").subscriptions.Holds ⟨0, "w", "t", "T", "p", false⟩ := by
  let c₀ : Postal := { start with
    offices := fun e => if e = "p" then twoTopics else .start
    streams := [⟨"p", "w", 1⟩] }
  obtain ⟨c, h, hend, hstreams, hgone⟩ := exists_reaches_of_checkedRun step (·.Settling ["p"] ·)
    (fun c => c.flight = [] ∧ (∀ s ∈ c.streams, ∀ x ∈ (c.offices s.office).listeners.toList,
      x.2.q.receive.isNone = true) ∧
      ¬ (c.offices "p").subscriptions.Holds ⟨0, "w", "t", "T", "p", false⟩)
    (c₀.send (runUnregister ["p"] ⟨0, "w", "t", "T", "p", false⟩)) [.deliver 0 ["p"]] (by decide +kernel)
  have hquiet : c₀.Quiet := by
    refine ⟨rfl, rfl, fun e m g q hq => ?_⟩
    by_cases he : e = "p"
    · subst he
      exact quiet_of_toList (d := twoTopics) (by decide +kernel) hq
    · have hq' : Dispatcher.start.channelOf m = some (g, q) := by
        rw [← hq]
        simp [c₀, he]
      cases hq'
  have hu : Undisturbed "p" "w" 1 ⟨0, "w", "t", "U", "p", false⟩ ["p"] c₀ :=
    ⟨by decide +kernel, by decide +kernel, by decide +kernel⟩
  refine ⟨c₀, _, c, ⟨hquiet, by decide +kernel⟩, rfl, h, hend, ?_, hgone⟩
  refine (unsubscribe_leaves_rest (t := ⟨0, "w", "t", "T", "", false⟩) (u := ⟨0, "w", "t", "U", "", false⟩)
    hquiet ⟨.make 2, by decide +kernel⟩ hu rfl (by decide +kernel) rfl h
    ⟨hend, fun s hs q hq => quiet_of_toList (hstreams s hs) hq⟩).2.2 ?_
  decide +kernel

/-- The deletion releases a pool over which a mail was sent, and the worker loses its stream and
its other topic. -/
theorem unsubscribe_ends_stream : ∃ c₀ c₁ c, Reaches step (fun _ _ => True) start c₀ ∧
    c₀.step (.unsubscribe "p" ⟨0, "w", "t", "T", "", false⟩ ["p"]) = some c₁ ∧
    Reaches step (·.Settling ["p"] ·) c₁ c ∧
    (c₀.flight = [] ∧ ⟨"p", "w", 1⟩ ∈ c₀.streams ∧
      (c₀.offices "p").subscriptions.Holds ⟨0, "w", "t", "T", "p", false⟩ ∧
      (c₀.offices "p").subscriptions.Holds ⟨0, "w", "t", "U", "p", false⟩) ∧
    c.flight = [] ∧ c.streams = [] ∧
      ¬ (c.offices "p").subscriptions.Holds ⟨0, "w", "t", "U", "p", false⟩ :=
  exists_reaches_of_checkedRuns step (fun _ _ => True) (·.Settling ["p"] ·)
    (fun c₀ c => (c₀.flight = [] ∧ ⟨"p", "w", 1⟩ ∈ c₀.streams ∧
      (c₀.offices "p").subscriptions.Holds ⟨0, "w", "t", "T", "p", false⟩ ∧
      (c₀.offices "p").subscriptions.Holds ⟨0, "w", "t", "U", "p", false⟩) ∧
    c.flight = [] ∧ c.streams = [] ∧
      ¬ (c.offices "p").subscriptions.Holds ⟨0, "w", "t", "U", "p", false⟩) start
    [.receive "p" "w", .deliver 0 [], .subscribe "p" ⟨0, "w", "t", "T", "", false⟩ ["p"], .deliver 0 [],
      .subscribe "p" ⟨0, "w", "t", "U", "", false⟩ ["p"], .deliver 0 [], .publish "p" "T", .deliver 0 []]
    (.unsubscribe "p" ⟨0, "w", "t", "T", "", false⟩ ["p"])
    [.deliver 0 ["p"], .deliver 0 ["p"], .hangUp ⟨"p", "w", 1⟩ ["p"], .deliver 0 ["p"]]
    (by decide +kernel)

end Postal

end Tarantula
