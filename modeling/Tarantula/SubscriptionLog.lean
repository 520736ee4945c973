import Tarantula.Postal

/-! The registry of a postoffice from the requests that it served. Each entry is what the
requests for its key left of it, the last first; so a subscription is gone where nothing
registered it after the request that took it away. -/

namespace Tarantula

namespace Subscription

variable {a b sub : Subscription}

def Same (a b : Subscription) : Prop :=
  a.nodeId = b.nodeId ∧ a.tag = b.tag ∧ a.topic = b.topic ∧ a.endpoint = b.endpoint

instance : Decidable (a.Same b) := inferInstanceAs (Decidable (_ ∧ _ ∧ _ ∧ _))

theorem Same.key (h : a.Same b) : a.key = b.key := by
  obtain ⟨hn, ht, htop, -⟩ := h
  unfold Subscription.key
  rw [hn, ht, htop]

theorem Same.topicKey (h : a.Same b) : a.topicKey = b.topicKey := by
  obtain ⟨-, -, htop, he⟩ := h
  unfold Subscription.topicKey
  rw [htop, he]

theorem same_of_key (hn : a.nodeId = b.nodeId) (hk : a.topicKey = b.topicKey) (h : a.key = b.key) :
    a.Same b := by
  obtain ⟨htop, he⟩ := TopicKey.mk.injEq _ _ _ _ ▸ hk
  refine ⟨hn, ?_, htop, he⟩
  have hl := congrArg String.toList h
  simp only [Subscription.key, hn, htop, String.toList_append, List.append_assoc,
    List.append_cancel_left_eq] at hl
  rw [← List.append_assoc, ← List.append_assoc, List.append_left_inj, List.append_left_inj] at hl
  exact String.toList_inj.mp hl

end Subscription

namespace SubscriptionRegistry

def Holds (s : SubscriptionRegistry) (sub : Subscription) : Prop := ∃ b ∈ s.subs, b.Same sub

instance (s : SubscriptionRegistry) (sub : Subscription) : Decidable (s.Holds sub) :=
  inferInstanceAs (Decidable (∃ b ∈ s.subs, b.Same sub))

theorem holds_iff {s : SubscriptionRegistry} {sub : Subscription} (h : s.Keyed) :
    s.Holds sub ↔ ∃ b, s.slot sub.topicKey sub.key = some b ∧ b.Same sub := by
  constructor
  · rintro ⟨b, hb, hs⟩
    rw [mem_subs b h, hs.topicKey, hs.key] at hb
    exact ⟨b, hb, hs⟩
  · rintro ⟨b, hb, hs⟩
    refine ⟨b, ?_, hs⟩
    rw [mem_subs b h, hs.topicKey, hs.key]
    exact hb

end SubscriptionRegistry

namespace OfficeRequest

def Registers (sub : Subscription) : OfficeRequest → Prop
  | .register b => b.routed.deleting = false ∧ b.routed.Same sub
  | _ => False

def Clears (sub : Subscription) : OfficeRequest → Prop
  | .register b => b.routed.deleting = true ∧ b.routed.Same sub
  | .removeSubs nodeId => nodeId = sub.nodeId
  | .nodeRemoved rpcEndpoint => rpcEndpoint = sub.endpoint
  | _ => False

/-- A registration with the key of the subscription is of this subscription, as it is where
NodeIds have no colon. -/
def KeyOf (sub : Subscription) : OfficeRequest → Prop
  | .register b => b.routed.topicKey = sub.topicKey → b.routed.key = sub.key → b.routed.Same sub
  | _ => True

/-- Of the requests, with the last one first, the last about the subscription registers it. -/
def RegisteredLast (sub : Subscription) : List OfficeRequest → Prop
  | [] => False
  | req :: earlier => req.Registers sub ∨ ¬ req.Clears sub ∧ RegisteredLast sub earlier

instance (sub : Subscription) : (req : OfficeRequest) → Decidable (req.Registers sub)
  | .register _ => inferInstanceAs (Decidable (_ ∧ _))
  | .nodeAdded | .nodeRemoved _ | .removeSubs _ | .receiverStart _ | .receiverEnd _ | .mail _ =>
    inferInstanceAs (Decidable False)

instance (sub : Subscription) : (req : OfficeRequest) → Decidable (req.Clears sub)
  | .register _ => inferInstanceAs (Decidable (_ ∧ _))
  | .removeSubs _ | .nodeRemoved _ => inferInstanceAs (Decidable (_ = _))
  | .nodeAdded | .receiverStart _ | .receiverEnd _ | .mail _ => inferInstanceAs (Decidable False)

instance (sub : Subscription) : (reqs : List OfficeRequest) → Decidable (RegisteredLast sub reqs)
  | [] => inferInstanceAs (Decidable False)
  | req :: earlier =>
    have := instDecidableRegisteredLast sub earlier
    inferInstanceAs (Decidable (req.Registers sub ∨ ¬ req.Clears sub ∧ RegisteredLast sub earlier))

/-- The entry of `sub` after the requests, with the last one first. -/
def replay (sub : Subscription) (reqs : List OfficeRequest) (b : Option Subscription) : Option Subscription :=
  reqs.foldr (fun req b => req.onSlot sub.topicKey sub.key b) b

variable {sub : Subscription} {req : OfficeRequest} {reqs : List OfficeRequest} {o : Option Subscription}

def IsOf (o : Option Subscription) (sub : Subscription) : Prop := ∃ b, o = some b ∧ b.Same sub

theorem isOf_onSlot (h : IsOf (req.onSlot sub.topicKey sub.key o) sub) :
    req.Registers sub ∨ ¬ req.Clears sub ∧ IsOf o sub := by
  obtain ⟨x, hx, hs⟩ := h
  cases req with
  | register b =>
    unfold onSlot at hx
    dsimp only at hx
    split at hx
    · split at hx
      · cases hx
      · next hdel =>
        cases o with
        | none =>
          cases hx
          exact .inl ⟨by simpa using hdel, hs⟩
        | some y =>
          cases hx
          exact .inr ⟨fun hc => hdel hc.1, y, rfl, hs⟩
    · next hk => exact .inr ⟨fun hc => hk ⟨hc.2.topicKey, hc.2.key⟩, x, hx, hs⟩
  | removeSubs n =>
    obtain ⟨hx, hn⟩ := Option.filter_eq_some_iff.mp hx
    refine .inr ⟨?_, x, hx, hs⟩
    rintro rfl
    simp [hs.1] at hn
  | nodeRemoved e =>
    obtain ⟨hx, hn⟩ := Option.filter_eq_some_iff.mp hx
    refine .inr ⟨?_, x, hx, hs⟩
    rintro rfl
    simp [hs.2.2.2] at hn
  | nodeAdded => exact .inr ⟨id, x, hx, hs⟩
  | receiverStart n => exact .inr ⟨id, x, hx, hs⟩
  | receiverEnd n => exact .inr ⟨id, x, hx, hs⟩
  | mail m => exact .inr ⟨id, x, hx, hs⟩

/-- Without requests of another node under the same key, the entry is of the subscription where
the request registers it, or does not take it away. -/
theorem onSlot_isOf (hkey : req.KeyOf sub) (ho : ∀ b, o = some b → b.Same sub)
    (h : req.Registers sub ∨ ¬ req.Clears sub ∧ IsOf o sub) :
    IsOf (req.onSlot sub.topicKey sub.key o) sub := by
  cases req with
  | register b =>
    unfold onSlot
    dsimp only
    rcases h with ⟨hadd, hs⟩ | ⟨hc, x, rfl, hs⟩
    · rw [if_pos ⟨hs.topicKey, hs.key⟩, if_neg (by simp [hadd])]
      cases o with
      | none => exact ⟨_, rfl, hs⟩
      | some y => exact ⟨y, rfl, ho y rfl⟩
    · split
      · next hk =>
        rw [if_neg fun hdel => hc ⟨hdel, hkey hk.1 hk.2⟩]
        exact ⟨x, rfl, hs⟩
      · exact ⟨x, rfl, hs⟩
  | removeSubs n =>
    obtain ⟨hc, x, rfl, hs⟩ := h.resolve_left id
    refine ⟨x, ?_, hs⟩
    simp only [onSlot, Option.filter_eq_some_iff, true_and, hs.1, Bool.not_eq_true',
      decide_eq_false_iff_not]
    exact fun h => hc h.symm
  | nodeRemoved e =>
    obtain ⟨hc, x, rfl, hs⟩ := h.resolve_left id
    refine ⟨x, ?_, hs⟩
    simp only [onSlot, Option.filter_eq_some_iff, true_and, hs.2.2.2, Bool.not_eq_true',
      decide_eq_false_iff_not]
    exact fun h => hc h.symm
  | nodeAdded => exact (h.resolve_left id).2
  | receiverStart n => exact (h.resolve_left id).2
  | receiverEnd n => exact (h.resolve_left id).2
  | mail m => exact (h.resolve_left id).2

theorem only_onSlot (hkey : req.KeyOf sub) (ho : ∀ b, o = some b → b.Same sub) :
    ∀ b, req.onSlot sub.topicKey sub.key o = some b → b.Same sub := by
  intro x hx
  cases req with
  | register b =>
    unfold onSlot at hx
    dsimp only at hx
    split at hx
    · next hk =>
      split at hx
      · cases hx
      · cases o with
        | none =>
          cases hx
          exact hkey hk.1 hk.2
        | some y =>
          cases hx
          exact ho y rfl
    · exact ho x hx
  | removeSubs n => exact ho x (Option.filter_eq_some_iff.mp hx).1
  | nodeRemoved e => exact ho x (Option.filter_eq_some_iff.mp hx).1
  | nodeAdded => exact ho x hx
  | receiverStart n => exact ho x hx
  | receiverEnd n => exact ho x hx
  | mail m => exact ho x hx

theorem isOf_replay (h : IsOf (replay sub reqs o) sub) :
    RegisteredLast sub reqs ∨ (∀ req ∈ reqs, ¬ req.Clears sub) ∧ IsOf o sub := by
  induction reqs with
  | nil => exact .inr ⟨by simp, h⟩
  | cons req earlier ih =>
    rcases isOf_onSlot h with hr | ⟨hc, ho⟩
    · exact .inl (.inl hr)
    · rcases ih ho with hr | ⟨hall, ho⟩
      · exact .inl (.inr ⟨hc, hr⟩)
      · refine .inr ⟨?_, ho⟩
        simp only [List.mem_cons, forall_eq_or_imp]
        exact ⟨hc, hall⟩

theorem only_replay (hkey : ∀ req ∈ reqs, req.KeyOf sub) (ho : ∀ b, o = some b → b.Same sub) :
    ∀ b, replay sub reqs o = some b → b.Same sub := by
  induction reqs with
  | nil => exact ho
  | cons req earlier ih =>
    have hrest := ih fun r hr => hkey r (List.mem_cons_of_mem _ hr)
    exact only_onSlot (hkey req List.mem_cons_self) hrest

theorem replay_isOf (hkey : ∀ req ∈ reqs, req.KeyOf sub) (ho : ∀ b, o = some b → b.Same sub)
    (h : RegisteredLast sub reqs) : IsOf (replay sub reqs o) sub := by
  induction reqs with
  | nil => cases h
  | cons req earlier ih =>
    have hrest := fun r hr => hkey r (List.mem_cons_of_mem _ hr)
    have hone := only_replay hrest ho
    refine onSlot_isOf (hkey req List.mem_cons_self) hone ?_
    rcases h with hr | ⟨hc, hr⟩
    · exact .inl hr
    · exact .inr ⟨hc, ih hrest hr⟩

end OfficeRequest

/-- The messages that an event may send. -/
def PostalEvent.Sends : PostalEvent → Message → Prop
  | .subscribe office sub members, m => m ∈ runRegister members { sub with endpoint := office }
  | .unsubscribe office sub members, m => m ∈ runUnregister members { sub with endpoint := office }
  | .receive office nodeId, m => m = (office, .receiverStart nodeId)
  | .hangUp s members, m => m ∈ runRemoveSubByNodeId members s.nodeId
  | .lost s members, m => m ∈ runRemoveSubByNodeId members s.nodeId
  | .nodeAdded office, m => m = (office, .nodeAdded)
  | .nodeRemoved office rpcEndpoint, m => m = (office, .nodeRemoved rpcEndpoint)
  | .askReserve .., m => ∃ mail, m.2 = .mail mail
  | .askFinish .., m => ∃ mail, m.2 = .mail mail
  | .publish .., m => ∃ mail, m.2 = .mail mail
  | _, _ => False

namespace Postal

variable {c c' c₀ : Postal} {ev : PostalEvent} {ok : Postal → PostalEvent → Prop}

def servedAt (c : Postal) (e : String) : List OfficeRequest :=
  (c.served.filter (·.1 = e)).map (·.2)

theorem servedAt_cons {e e' : String} {req : OfficeRequest} (h : c'.served = (e, req) :: c.served) :
    c'.servedAt e' = if e = e' then req :: c.servedAt e' else c.servedAt e' := by
  rw [servedAt, h]
  by_cases he : e = e' <;> simp [servedAt, he]

/-- What a step does to the registries and the messages: it serves a message, loses one, or sends
some and leaves the entries of all registries. -/
inductive Stepped (c : Postal) : PostalEvent → Postal → Prop
  | served {c' : Postal} (i : Nat) (members : List String) (e : String) (req : OfficeRequest)
      (d : Dispatcher) (out : List Outgoing) (mem : c.flight[i]? = some (e, req))
      (serve : (c.offices e).serve e req = some (d, out))
      (offices : c'.offices = fun e' => if e' = e then d else c.offices e')
      (flight : c'.flight = c.flight.eraseIdx i ++ out.flatMap (·.messages members e))
      (sent : c'.sent = c.sent ++ out.flatMap (·.messages members e))
      (served : c'.served = (e, req) :: c.served) : Stepped c (.deliver i members) c'
  | dropped {i : Nat} : Stepped c (.drop i) { c with flight := c.flight.eraseIdx i }
  | kept {ev : PostalEvent} {c' : Postal} (msgs : List Message) (sends : ∀ m ∈ msgs, ev.Sends m)
      (flight : c'.flight = c.flight ++ msgs) (sent : c'.sent = c.sent ++ msgs)
      (served : c'.served = c.served)
      (topicEnds : ∀ e, (c'.offices e).subscriptions.topicEnds = (c.offices e).subscriptions.topicEnds) :
      Stepped c ev c'

theorem topicEnds_setOffice {e : String} {d : Dispatcher}
    (h : d.subscriptions.topicEnds = (c.offices e).subscriptions.topicEnds) (e' : String) :
    ((c.setOffice e d).offices e').subscriptions.topicEnds =
      (c.offices e').subscriptions.topicEnds := by
  unfold setOffice
  dsimp only
  split
  · next he => rw [he, h]
  · rfl

theorem topicEnds_taskAssign (range : RangeOrder) (d : Dispatcher) (nodeId tag name : String) :
    (d.taskAssign range nodeId tag name).1.subscriptions.topicEnds = d.subscriptions.topicEnds := by
  unfold Dispatcher.taskAssign
  dsimp only
  split
  · rfl
  · unfold SubscriptionRegistry.pick
    dsimp only
    split <;> rfl

theorem topicEnds_conns (keys : List TopicKey) (d : Dispatcher) :
    (keys.foldl Dispatcher.conn d).subscriptions.topicEnds = d.subscriptions.topicEnds := by
  induction keys generalizing d with
  | nil => rfl
  | cons k keys ih => exact ih (d.conn k)

theorem stepped (h : c.step ev = some c') : Stepped c ev c' := by
  have hnil : ∀ {l : List Message}, l = l ++ [] := fun {l} => (List.append_nil l).symm
  cases ev with
  | subscribe office sub members =>
    cases h
    exact .kept _ (fun m hm => hm) rfl rfl rfl fun _ => rfl
  | unsubscribe office sub members =>
    cases h
    exact .kept _ (fun m hm => hm) rfl rfl rfl fun _ => rfl
  | receive office nodeId =>
    cases h
    exact .kept _ (fun m hm => List.mem_singleton.mp hm) rfl rfl rfl fun _ => rfl
  | nodeAdded office =>
    cases h
    exact .kept _ (fun m hm => List.mem_singleton.mp hm) rfl rfl rfl fun _ => rfl
  | nodeRemoved office e =>
    cases h
    exact .kept _ (fun m hm => List.mem_singleton.mp hm) rfl rfl rfl fun _ => rfl
  | hangUp s members =>
    obtain ⟨-, ch, _, q, -, -, rfl⟩ := hangUp_cases h
    exact .kept _ (fun m hm => hm) rfl rfl rfl (topicEnds_setOffice rfl)
  | lost s members =>
    unfold step at h
    dsimp only at h
    split at h
    · cases h
      exact .kept _ (fun m hm => hm) rfl rfl rfl fun _ => rfl
    · cases h
  | read s =>
    obtain ⟨ch, rev, -, rfl⟩ := read_cases h
    exact .kept [] (by simp) hnil hnil rfl (topicEnds_setOffice rfl)
  | askReserve office mt range =>
    have ht := topicEnds_taskAssign range (c.offices office) "" mt.tag mt.name
    unfold step at h
    dsimp only at h
    split at h
    · cases h
      exact .kept [] (by simp) hnil hnil rfl (topicEnds_setOffice ht)
    · cases h
      exact .kept _ (fun m hm => ⟨_, congrArg Prod.snd (List.mem_singleton.mp hm)⟩) rfl rfl rfl
        (topicEnds_setOffice ht)
  | askFinish office mt range =>
    have ht := topicEnds_taskAssign range (c.offices office) mt.nodeId mt.tag mt.name
    unfold step at h
    dsimp only at h
    split at h
    · cases h
      exact .kept [] (by simp) hnil hnil rfl (topicEnds_setOffice ht)
    · cases h
      refine .kept _ (fun m hm => ⟨_, congrArg Prod.snd (List.mem_singleton.mp hm)⟩) rfl rfl rfl
        (topicEnds_setOffice ?_)
      split
      · exact ht
      · exact ht
  | publish office name =>
    cases h
    refine .kept _ (fun m hm => ?_) rfl rfl rfl (topicEnds_setOffice (topicEnds_conns _ _))
    obtain ⟨k, -, rfl⟩ := List.mem_map.mp hm
    exact ⟨_, rfl⟩
  | deliver i members =>
    obtain ⟨e, req, d, out, hi, hd, rfl⟩ := deliver_cases h
    exact .served i members e req d out hi hd rfl rfl rfl rfl
  | drop i =>
    unfold step at h
    dsimp only at h
    split at h
    · cases h
      exact .dropped
    · cases h

/-- The entry of a subscription is what the served requests make of the one at the start. -/
theorem replayed (h : Reaches step ok c₀ c) (h₀ : c₀.served = []) (e : String) (sub : Subscription) :
    (c.offices e).subscriptions.slot sub.topicKey sub.key =
      OfficeRequest.replay sub (c.servedAt e) ((c₀.offices e).subscriptions.slot sub.topicKey sub.key) := by
  apply h.invariant
  · rw [servedAt, h₀]
    rfl
  · intro c ev c' ih _ hstep
    cases stepped hstep with
    | served i members e' req d out _ hserve hoff _ _ hserved =>
      rw [servedAt_cons hserved, hoff]
      by_cases he : e = e'
      · subst he
        simp only [if_true]
        rw [Dispatcher.slot_serve hserve, ih]
        rfl
      · have he' : ¬ e' = e := fun h => he h.symm
        simp only [he, he', if_false]
        exact ih
    | dropped => exact ih
    | kept msgs _ _ _ hserved hends =>
      rw [servedAt, hserved]
      unfold SubscriptionRegistry.slot
      rw [hends]
      exact ih

theorem registeredLast_of_holds (h : Reaches step ok start c) {e : String} {sub : Subscription}
    (hh : (c.offices e).subscriptions.Holds sub) : OfficeRequest.RegisteredLast sub (c.servedAt e) := by
  rw [SubscriptionRegistry.holds_iff (c.offices e).keyed, replayed h rfl] at hh
  refine (OfficeRequest.isOf_replay hh).resolve_right ?_
  rintro ⟨-, x, hx, -⟩
  cases hx

end Postal

end Tarantula
