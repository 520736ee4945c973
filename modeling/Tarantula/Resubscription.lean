import Tarantula.SubscriptionOrder

/-! A worker that lost its stream and subscribes again. The postoffice of the old stream tells all
members to remove the subscriptions of the node, by a goroutine of its own; the new stream has the
same NodeId, so a removal that comes after a registration takes that away as well. -/

namespace Tarantula

def resubscribe (nodeId tag : String) (subscriptions transactions : List String) : List Subscription :=
  subscriptions.map (⟨topicMail, nodeId, tag, ·, "", false⟩) ++
    transactions.map (⟨transMail, nodeId, tag, ·, "", false⟩)

theorem nodeId_of_resubscribe {nodeId tag : String} {subscriptions transactions : List String}
    {sub : Subscription} (h : sub ∈ resubscribe nodeId tag subscriptions transactions) :
    sub.nodeId = nodeId := by
  rcases List.mem_append.mp h with h | h
  · obtain ⟨name, -, rfl⟩ := List.mem_map.mp h
    rfl
  · obtain ⟨name, -, rfl⟩ := List.mem_map.mp h
    rfl

/-- The requests that come of a reconnect. A removal may release a pool, which ends streams. -/
def OfficeRequest.OfReconnect (nodeId : String) : OfficeRequest → Prop
  | .register sub => sub.nodeId = nodeId ∧ sub.deleting = false
  | .removeSubs n => n = nodeId
  | .receiverStart _ => True
  | .receiverEnd _ => True
  | _ => False

namespace Dispatcher

variable {own : String} {d d' : Dispatcher} {out : List Outgoing}

theorem messages_ofReconnect {req : OfficeRequest} {nodeId : String} (members : List String)
    (h : d.serve own req = some (d', out)) (hreq : req.OfReconnect nodeId) :
    ∀ m ∈ out.flatMap (·.messages members own), m.2.OfReconnect nodeId := by
  intro m hm
  cases req with
  | register sub =>
    have hdel : sub.routed.deleting = false := (sub.routed_deleting).trans hreq.2
    have hout : out = [] := by
      rw [← out_of_serve h, registered_out, if_neg (by simp [hdel])]
    rw [hout] at hm
    cases hm
  | removeSubs n =>
    rw [← out_of_serve h] at hm
    obtain ⟨pool, -, -, rfl⟩ := mem_released.mp hm
    trivial
  | receiverStart name =>
    rw [← out_of_serve h] at hm
    cases hm
  | receiverEnd name =>
    obtain ⟨d₁, -, heq⟩ := Option.map_eq_some_iff.mp h
    cases heq
    cases hm
  | nodeAdded => exact hreq.elim
  | nodeRemoved e => exact hreq.elim
  | mail mail => exact hreq.elim

end Dispatcher

namespace OfficeRequest

variable {nodeId : String} {sub : Subscription} {req : OfficeRequest} {reqs : List OfficeRequest}

theorem OfReconnect.keyOf (h : req.OfReconnect nodeId) (hn : sub.nodeId = nodeId) : req.KeyOf sub := by
  cases req with
  | register b =>
    intro hk hkey
    exact Subscription.same_of_key (((b.routed_nodeId).trans h.1).trans hn.symm) hk hkey
  | _ => trivial

theorem replay_other {b : Subscription} (h : ∀ req ∈ reqs, req.OfReconnect nodeId)
    (hb : b.nodeId ≠ nodeId) : replay sub reqs (some b) = some b := by
  induction reqs with
  | nil => rfl
  | cons req earlier ih =>
    rw [replay, List.foldr_cons]
    rw [replay] at ih
    rw [ih fun r hr => h r (List.mem_cons_of_mem _ hr)]
    have hreq := h req List.mem_cons_self
    cases req with
    | register b' =>
      have hdel : b'.routed.deleting = false := (b'.routed_deleting).trans hreq.2
      simp only [onSlot, hdel, Bool.false_eq_true, if_false]
      split <;> rfl
    | removeSubs n =>
      cases hreq
      simp [onSlot, hb]
    | receiverStart n => rfl
    | receiverEnd n => rfl
    | nodeAdded => rfl
    | nodeRemoved e => exact hreq.elim
    | mail m => rfl

end OfficeRequest

namespace Postal

variable {c₀ c : Postal}

/-- The events of a reconnect of the worker at the postoffice `p`, with all deliveries. -/
def Reconnecting (p nodeId : String) (subs : List Subscription) (members : List String) (_ : Postal) :
    PostalEvent → Prop
  | .lost s ms => s.nodeId = nodeId ∧ ms = members
  | .hangUp s ms => s.nodeId = nodeId ∧ ms = members
  | .receive office n => office = p ∧ n = nodeId
  | .subscribe office sub ms => office = p ∧ sub ∈ subs ∧ ms = members
  | .read _ => True
  | .deliver _ _ => True
  | _ => False

instance (p nodeId : String) (subs : List Subscription) (members : List String) (c : Postal)
    (ev : PostalEvent) : Decidable (Reconnecting p nodeId subs members c ev) := by
  induction ev using PostalEvent.casesOn <;> dsimp only [Reconnecting] <;> infer_instance

/-- Nothing gets lost, and all requests come of the reconnect. -/
structure ReconnectMail (nodeId : String) (c : Postal) : Prop where
  flight : ∀ m ∈ c.flight, m.2.OfReconnect nodeId
  served : ∀ m ∈ c.served, m.2.OfReconnect nodeId
  sent : ∀ m ∈ c.sent, m ∈ c.flight ∨ m ∈ c.served

theorem sends_ofReconnect {p nodeId : String} {subs : List Subscription} {members : List String}
    {c : Postal} {ev : PostalEvent} (hsubs : ∀ sub ∈ subs, sub.nodeId = nodeId)
    (hok : Reconnecting p nodeId subs members c ev) {m : Message} (hm : ev.Sends m) :
    m.2.OfReconnect nodeId := by
  cases ev with
  | subscribe office sub ms =>
    obtain ⟨e, -, rfl⟩ := List.mem_map.mp hm
    exact ⟨hsubs sub hok.2.1, rfl⟩
  | receive office n =>
    cases hm
    trivial
  | hangUp s ms =>
    obtain ⟨e, -, rfl⟩ := List.mem_map.mp hm
    exact hok.1
  | lost s ms =>
    obtain ⟨e, -, rfl⟩ := List.mem_map.mp hm
    exact hok.1
  | _ => first | exact hm.elim | exact hok.elim

theorem ReconnectMail.step {p nodeId : String} {subs : List Subscription} {members : List String}
    {c c' : Postal} {ev : PostalEvent} (h : ReconnectMail nodeId c)
    (hsubs : ∀ sub ∈ subs, sub.nodeId = nodeId) (hok : Reconnecting p nodeId subs members c ev)
    (hstep : c.step ev = some c') : ReconnectMail nodeId c' := by
  cases stepped hstep with
  | served i ms e req d out hi hserve hoff hflight hsent hserved =>
    have hreq := h.flight _ (List.mem_of_getElem? hi)
    refine ⟨fun m hm => ?_, fun m hm => ?_, fun m hm => ?_⟩
    · rw [hflight] at hm
      rcases List.mem_append.mp hm with hm | hm
      · exact h.flight m (List.mem_of_mem_eraseIdx hm)
      · exact Dispatcher.messages_ofReconnect ms hserve hreq m hm
    · rw [hserved] at hm
      rcases List.mem_cons.mp hm with rfl | hm
      · exact hreq
      · exact h.served m hm
    · rw [hsent] at hm
      rw [hflight, hserved]
      rcases List.mem_append.mp hm with hm | hm
      · rcases h.sent m hm with hm | hm
        · rcases (mem_cons_eraseIdx hi).mp hm with rfl | hm
          · exact .inr List.mem_cons_self
          · exact .inl (List.mem_append_left _ hm)
        · exact .inr (List.mem_cons_of_mem _ hm)
      · exact .inl (List.mem_append_right _ hm)
  | dropped => exact hok.elim
  | kept msgs hsends hflight hsent hserved _ =>
    refine ⟨fun m hm => ?_, fun m hm => ?_, fun m hm => ?_⟩
    · rw [hflight] at hm
      rcases List.mem_append.mp hm with hm | hm
      · exact h.flight m hm
      · exact sends_ofReconnect hsubs hok (hsends m hm)
    · rw [hserved] at hm
      exact h.served m hm
    · rw [hsent] at hm
      rw [hflight, hserved]
      rcases List.mem_append.mp hm with hm | hm
      · exact (h.sent m hm).imp_left (List.mem_append_left _)
      · exact .inl (List.mem_append_right _ hm)

theorem mem_servedAt {e : String} {req : OfficeRequest} : req ∈ c.servedAt e ↔ (e, req) ∈ c.served := by
  simp [servedAt]

/-- The registries have all subscriptions of the worker again exactly where each was registered
after the last removal, and no other node had its key. -/
theorem resubscribed_iff {p nodeId tag : String} {subscriptions transactions members : List String}
    (h₀ : c₀.flight = [] ∧ c₀.sent = [] ∧ c₀.served = [])
    (h : Reaches step (Reconnecting p nodeId (resubscribe nodeId tag subscriptions transactions) members)
      c₀ c) (hend : c.flight = []) (hremoved : ∀ e ∈ members, (e, .removeSubs nodeId) ∈ c.sent) :
    (∀ e ∈ members, ∀ sub ∈ resubscribe nodeId tag subscriptions transactions,
        (c.offices e).subscriptions.Holds (sub.registeredAt p)) ↔
      ∀ e ∈ members, ∀ sub ∈ resubscribe nodeId tag subscriptions transactions,
        OfficeRequest.RegisteredLast (sub.registeredAt p) (c.servedAt e) ∧
          ∀ b, (c₀.offices e).subscriptions.slot (sub.registeredAt p).topicKey (sub.registeredAt p).key
            = some b → b.nodeId = nodeId := by
  have hmail : ReconnectMail nodeId c := by
    apply h.invariant
    · obtain ⟨hf, hs, hv⟩ := h₀
      constructor
      · simp [hf]
      · simp [hv]
      · simp [hs]
    · exact fun s ev t hm hok hstep => hm.step (fun sub hs => nodeId_of_resubscribe hs) hok hstep
  have hreqs : ∀ e, ∀ req ∈ c.servedAt e, req.OfReconnect nodeId := fun e req hr =>
    hmail.served _ (mem_servedAt.mp hr)
  -- first for one postoffice and one subscription
  have hone : ∀ e ∈ members, ∀ sub ∈ resubscribe nodeId tag subscriptions transactions,
      ((c.offices e).subscriptions.Holds (sub.registeredAt p) ↔
        OfficeRequest.RegisteredLast (sub.registeredAt p) (c.servedAt e) ∧
          ∀ b, (c₀.offices e).subscriptions.slot (sub.registeredAt p).topicKey (sub.registeredAt p).key
            = some b → b.nodeId = nodeId) := by
    intro e he sub hsub
    have hnode : (sub.registeredAt p).nodeId = nodeId := by
      have hn : sub.nodeId = nodeId := nodeId_of_resubscribe hsub
      rw [Subscription.registeredAt, Subscription.routed_nodeId]
      exact hn
    rw [SubscriptionRegistry.holds_iff (c.offices e).keyed, replayed h h₀.2.2]
    constructor
    · intro hh
      refine ⟨(OfficeRequest.isOf_replay hh).resolve_right fun hk => ?_, fun b hb => ?_⟩
      · have hserved : .removeSubs nodeId ∈ c.servedAt e := by
          rcases hmail.sent _ (hremoved e he) with hf | hv
          · rw [hend] at hf
            cases hf
          · exact mem_servedAt.mpr hv
        exact hk.1 _ hserved hnode.symm
      · by_contra hne
        obtain ⟨x, hx, hs⟩ := hh
        rw [hb, OfficeRequest.replay_other (hreqs e) hne, Option.some.injEq] at hx
        exact hne (by rw [hx, hs.1, hnode])
    · rintro ⟨hlast, hfree⟩
      refine OfficeRequest.replay_isOf (fun req hr => (hreqs e req hr).keyOf hnode) (fun b hb => ?_) hlast
      obtain ⟨hk, hkey⟩ := (c₀.offices e).keyed.keys _ _ _ hb
      exact Subscription.same_of_key ((hfree b hb).trans hnode.symm) hk hkey
  constructor
  · exact fun hh e he sub hsub => (hone e he sub hsub).mp (hh e he sub hsub)
  · exact fun hh e he sub hsub => (hone e he sub hsub).mpr (hh e he sub hsub)

/-- The removals come first. -/
theorem resubscribed_after_removal : ∃ c,
    Reaches step (Reconnecting "p" "w" (resubscribe "w" "t" ["T"] []) ["p", "q"]) start c ∧
    c.flight = [] ∧ c.streams = [⟨"p", "w", 2⟩] ∧
    ∀ e ∈ ["p", "q"], ∀ sub ∈ resubscribe "w" "t" ["T"] [],
      (c.offices e).subscriptions.Holds (sub.registeredAt "p") := by
  obtain ⟨c, h, hstream, hend, hsent, hlast⟩ := exists_reaches_of_checkedRun step
    (Reconnecting "p" "w" (resubscribe "w" "t" ["T"] []) ["p", "q"])
    (fun c => c.streams = [⟨"p", "w", 2⟩] ∧ c.flight = [] ∧
      (∀ e ∈ ["p", "q"], (e, .removeSubs "w") ∈ c.sent) ∧
      ∀ e ∈ ["p", "q"], ∀ sub ∈ resubscribe "w" "t" ["T"] [],
        OfficeRequest.RegisteredLast (sub.registeredAt "p") (c.servedAt e)) start
    [.receive "p" "w", .deliver 0 [], .lost ⟨"p", "w", 1⟩ ["p", "q"], .receive "p" "w",
      .subscribe "p" ⟨0, "w", "t", "T", "", false⟩ ["p", "q"],
      .deliver 0 [], .deliver 0 [], .deliver 0 [], .deliver 0 [], .deliver 0 []] (by decide +kernel)
  refine ⟨c, h, hend, hstream, (resubscribed_iff ⟨rfl, rfl, rfl⟩ h hend hsent).mpr fun e he sub hsub => ?_⟩
  exact ⟨hlast e he sub hsub, fun b hb => by cases hb⟩

/-- A worker with one topic loses its stream, and the removals come after the registrations. -/
theorem resubscribed_lost : ∃ c₀ c₁ c, Reaches step (fun _ _ => True) start c₀ ∧
    c₀.step (.lost ⟨"p", "w", 1⟩ ["p", "q"]) = some c₁ ∧
    Reaches step (Reconnecting "p" "w" (resubscribe "w" "t" ["T"] []) ["p", "q"]) c₁ c ∧
    c.flight = [] ∧ c.streams = [⟨"p", "w", 2⟩] ∧
    ∀ e ∈ ["p", "q"],
      (c.servedAt e).take 2 = [.removeSubs "w", .register ⟨0, "w", "t", "T", "p", false⟩] ∧
      ¬ (c.offices e).subscriptions.Holds ⟨0, "w", "t", "T", "p", false⟩ :=
  exists_reaches_of_checkedRuns step (fun _ _ => True)
    (Reconnecting "p" "w" (resubscribe "w" "t" ["T"] []) ["p", "q"])
    (fun _ c => c.flight = [] ∧ c.streams = [⟨"p", "w", 2⟩] ∧ ∀ e ∈ ["p", "q"],
      (c.servedAt e).take 2 = [.removeSubs "w", .register ⟨0, "w", "t", "T", "p", false⟩] ∧
      ¬ (c.offices e).subscriptions.Holds ⟨0, "w", "t", "T", "p", false⟩) start
    [.receive "p" "w", .deliver 0 [], .subscribe "p" ⟨0, "w", "t", "T", "", false⟩ ["p", "q"],
      .deliver 0 [], .deliver 0 []] (.lost ⟨"p", "w", 1⟩ ["p", "q"])
    [.receive "p" "w", .subscribe "p" ⟨0, "w", "t", "T", "", false⟩ ["p", "q"],
      .deliver 2 [], .deliver 2 [], .deliver 2 [], .deliver 0 [], .deliver 0 []] (by decide +kernel)

end Postal

end Tarantula
