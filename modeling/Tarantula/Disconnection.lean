import Tarantula.SubscriptionOrder

/-! What an unsubscription does to the rest of its worker. The deletion of the last subscription of
a topic at an endpoint releases the pool of that entry; a pool that has a connection sends a
`Disconnect` for the node that made the entry. That ends the stream of the node, and with the
stream go all its subscriptions. -/

namespace Tarantula

/-- The requests that come of an unsubscription. -/
def OfficeRequest.OfUnsubscribe (unreg : Subscription) : OfficeRequest → Prop
  | .register sub => sub = unreg
  | .removeSubs _ => True
  | .receiverEnd _ => True
  | _ => False

namespace MailRoom

variable {m : MailRoom}

def channelOf (m : MailRoom) (name : String) : Option (Nat × Chan String) :=
  m.listeners[name]?.map fun ch => (ch.stream, ch.q)

theorem channelOf_listen (name : String) (ch : ReceiverAsync) (n : String) :
    (m.listen name ch).channelOf n = if name = n then some (ch.stream, ch.q) else m.channelOf n := by
  unfold channelOf listen
  rw [ExtMap.getElem?_insert]
  split <;> rfl

theorem channelOf_of_getElem? {name : String} {ch : ReceiverAsync} (h : m.listeners[name]? = some ch) :
    m.channelOf name = some (ch.stream, ch.q) := by
  unfold channelOf
  rw [h]
  rfl

theorem channelOf_unregistered {unreg : Subscription} (hdel : unreg.deleting = true) (own : String)
    (m : MailRoom) (n : String) : (m.registerSubscription own unreg).channelOf n = m.channelOf n := by
  unfold registerSubscription
  dsimp only
  rw [if_pos ((unreg.routed_deleting).trans hdel)]
  split
  · split
    · rfl
    · next ch hch =>
      rw [channelOf_listen]
      split
      · next hn =>
        rw [← hn]
        exact (channelOf_of_getElem? hch).symm
      · rfl
  · rfl

theorem channelOf_ended {m' : MailRoom} {name : String} (h : m.receiverEnd name = some m') (n : String) :
    m'.channelOf n = if name = n then (m.channelOf n).map fun (g, q) => (g, { q with buf := q.buf ++ [n] })
      else m.channelOf n := by
  rcases receiverEnd_cases h with ⟨hnone, rfl⟩ | ⟨ch, hch, rfl⟩
  · split
    · next hn =>
      unfold channelOf
      rw [← hn, hnone]
      rfl
    · rfl
  · rw [channelOf_listen]
    split
    · next hn =>
      rw [← hn, channelOf_of_getElem? hch]
      rfl
    · rfl

end MailRoom

namespace Dispatcher

variable {own : String} {d d' : Dispatcher} {req : OfficeRequest} {out : List Outgoing}
  {unreg : Subscription}

theorem channelOf_served (hdel : unreg.deleting = true) (h : d.serve own req = some (d', out))
    (hreq : req.OfUnsubscribe unreg) (m : String) : d'.channelOf m =
      if req = .receiverEnd m then (d.channelOf m).map fun (g, q) => (g, { q with buf := q.buf ++ [m] })
      else d.channelOf m := by
  cases req with
  | register sub =>
    cases hreq
    rw [← eq_of_serve h, if_neg (by simp), registered_room]
    exact MailRoom.channelOf_unregistered hdel own d.toMailRoom m
  | removeSubs n =>
    rw [← eq_of_serve h, if_neg (by simp)]
    rfl
  | receiverEnd name =>
    obtain ⟨d₁, hd, heq⟩ := Option.map_eq_some_iff.mp h
    cases heq
    obtain ⟨room, _, hroom, rfl⟩ := Option.pmap_eq_some_iff.mp hd
    simp only [OfficeRequest.receiverEnd.injEq]
    exact MailRoom.channelOf_ended hroom m
  | _ => exact hreq.elim

theorem listens_served {topic m : String} (h : d.serve own req = some (d', out))
    (hreq : req.OfUnsubscribe unreg) (ht : unreg.routed.topic ≠ topic) (hm : topic ∈ d.subsOf m) :
    topic ∈ d'.subsOf m := by
  cases req with
  | register sub =>
    cases hreq
    rw [← eq_of_serve h, registered_subsOf]
    split
    · split
      · rw [Std.ExtTreeMap.mem_erase, ne_eq, Std.compare_eq_iff_eq]
        exact ⟨ht, hm⟩
      · rw [Std.ExtTreeMap.mem_insert]
        exact .inr hm
    · exact hm
  | removeSubs n =>
    rw [← eq_of_serve h]
    exact hm
  | receiverEnd name =>
    obtain ⟨d₁, hd, heq⟩ := Option.map_eq_some_iff.mp h
    cases heq
    rw [(SameSubs.receiverEnd hd).subsOf]
    exact hm
  | _ => exact hreq.elim

theorem holds_served {u : Subscription} (h : d.serve own req = some (d', out))
    (hreq : req.OfUnsubscribe unreg) (hne : req ≠ .removeSubs u.nodeId)
    (ht : unreg.routed.topic ≠ u.topic) (hh : d.subscriptions.Holds u) : d'.subscriptions.Holds u := by
  rw [SubscriptionRegistry.holds_iff d.keyed] at hh
  rw [SubscriptionRegistry.holds_iff d'.keyed, slot_serve h]
  have hone : ∀ b, d.subscriptions.slot u.topicKey u.key = some b → b.Same u := by
    obtain ⟨x, hx, hs⟩ := hh
    intro b hb
    cases hx.symm.trans hb
    exact hs
  apply OfficeRequest.onSlot_isOf _ hone (.inr ⟨_, hh⟩)
  · cases req with
    | register sub =>
      cases hreq
      exact fun hk => absurd (congrArg TopicKey.topic hk) ht
    | _ => trivial
  · cases req with
    | register sub =>
      cases hreq
      exact fun hc => ht hc.2.2.2.1
    | removeSubs m =>
      rintro rfl
      exact hne rfl
    | nodeRemoved e => exact hreq.elim
    | _ => exact id

theorem out_ofUnsubscribe (hdel : unreg.deleting = true) (h : d.serve own req = some (d', out))
    (hreq : req.OfUnsubscribe unreg) : ∃ pools : List RpcConnPool, out = pools.flatMap (·.release) ∧
      (∀ n, req = .receiverEnd n → pools = []) ∧
      (req = .register unreg → pools = (d.subscriptions.del unreg.routed).2.toList) := by
  cases req with
  | register sub =>
    cases hreq
    refine ⟨(d.subscriptions.del unreg.routed).2.toList, ?_, by simp, fun _ => rfl⟩
    rw [← out_of_serve h, registered_out, if_pos ((unreg.routed_deleting).trans hdel)]
  | removeSubs n =>
    refine ⟨_, (out_of_serve h).symm, by simp, by simp⟩
  | receiverEnd name =>
    obtain ⟨d₁, -, heq⟩ := Option.map_eq_some_iff.mp h
    cases heq
    exact ⟨[], rfl, fun _ _ => rfl, by simp⟩
  | _ => exact hreq.elim

end Dispatcher

namespace Postal

variable {c c' : Postal} {ev : PostalEvent} {members : List String}

/-- Deliveries, and streams that read from their channels. -/
def Settling (members : List String) (_ : Postal) : PostalEvent → Prop
  | .deliver _ ms => ms = members
  | .hangUp _ ms => ms = members
  | .read _ => True
  | _ => False

instance (c : Postal) : Decidable (c.Settling members ev) := by
  induction ev using PostalEvent.casesOn <;> dsimp only [Settling] <;> infer_instance

/-- The step serves a message, or a running stream reads that it is to end, or a mail. -/
inductive SettlingStep (members : List String) (c c' : Postal) : Prop
  | served (i : Nat) (e : String) (req : OfficeRequest) (d : Dispatcher) (out : List Outgoing)
      (mem : c.flight[i]? = some (e, req)) (serve : (c.offices e).serve e req = some (d, out))
      (offices : c'.offices = fun e' => if e' = e then d else c.offices e')
      (streams : c'.streams = c.streams ++ out.filterMap (·.receiving e))
      (flight : c'.flight = c.flight.eraseIdx i ++ out.flatMap (·.messages members e))
      (sent : c'.sent = c.sent ++ out.flatMap (·.messages members e))
  | hungUp (s : Receiving) (q : Chan String) (mem : s ∈ c.streams)
      (channel : (c.offices s.office).channelOf s.nodeId = some (s.stream, q)) (pending : q.receive ≠ none)
      (same : ∀ e, Dispatcher.SameSubs (c.offices e) (c'.offices e))
      (channels : ∀ e m, e ≠ s.office ∨ m ≠ s.nodeId →
        (c'.offices e).channelOf m = (c.offices e).channelOf m)
      (stream : ∃ q', (c'.offices s.office).channelOf s.nodeId = some (s.stream, q'))
      (streams : c'.streams = c.streams.filter (· ≠ s))
      (flight : c'.flight = c.flight ++ runRemoveSubByNodeId members s.nodeId)
      (sent : c'.sent = c.sent ++ runRemoveSubByNodeId members s.nodeId)
  | read (same : ∀ e, Dispatcher.SameSubs (c.offices e) (c'.offices e))
      (channels : ∀ e m, (c'.offices e).channelOf m = (c.offices e).channelOf m)
      (streams : c'.streams = c.streams) (flight : c'.flight = c.flight) (sent : c'.sent = c.sent)

theorem SettlingStep.sent_subset (h : SettlingStep members c c') : c.sent ⊆ c'.sent := by
  cases h with
  | served i e req d out _ _ _ _ _ hsent =>
    rw [hsent]
    exact List.subset_append_left _ _
  | hungUp s q _ _ _ _ _ _ _ _ hsent =>
    rw [hsent]
    exact List.subset_append_left _ _
  | read _ _ _ _ hsent =>
    rw [hsent]
    exact List.Subset.refl _

theorem channels_some {s : Receiving} {ch : ReceiverAsync} (h : c.channels s = some ch) :
    (c.offices s.office).listeners[s.nodeId]? = some ch ∧ ch.stream = s.stream := by
  obtain ⟨hl, hs⟩ := Option.filter_eq_some_iff.mp h
  exact ⟨hl, by simpa using hs⟩

theorem channelOf_setOffice {e : String} {d : Dispatcher} {m : String} (e' : String) :
    ((c.setOffice e d).offices e').channelOf m =
      if e' = e then d.channelOf m else (c.offices e').channelOf m := by
  unfold setOffice
  dsimp only
  split <;> rfl

theorem sameSubs_setOffice {e : String} {d : Dispatcher} (h : Dispatcher.SameSubs (c.offices e) d)
    (e' : String) : Dispatcher.SameSubs (c.offices e') ((c.setOffice e d).offices e') := by
  unfold setOffice
  dsimp only
  split
  · next he => exact he ▸ h
  · exact .refl _

theorem settlingStep (hok : c.Settling members ev) (h : c.step ev = some c') :
    SettlingStep members c c' := by
  cases ev with
  | deliver i ms =>
    cases hok
    obtain ⟨e, req, d, out, hi, hd, rfl⟩ := deliver_cases h
    exact .served i e req d out hi hd rfl rfl rfl rfl
  | hangUp s ms =>
    cases hok
    obtain ⟨hs, ch, x, q, hch, hq, rfl⟩ := hangUp_cases h
    obtain ⟨hl, hstream⟩ := channels_some hch
    have hchan := MailRoom.channelOf_of_getElem? hl
    rw [hstream] at hchan
    refine .hungUp s ch.q hs hchan ?_ ?_ ?_ ?_ rfl rfl rfl
    · rw [hq]
      exact Option.some_ne_none _
    · exact sameSubs_setOffice (.listen (MailRoom.subsOf_of_getElem? hl).symm)
    · intro e m hne
      refine (channelOf_setOffice e).trans ?_
      split
      · next he =>
        rw [Dispatcher.listen_room, MailRoom.channelOf_listen,
          if_neg fun hm => (hne.resolve_left fun h => h he) hm.symm, he]
      · rfl
    · refine ⟨q, (channelOf_setOffice s.office).trans ?_⟩
      rw [if_pos rfl, Dispatcher.listen_room, MailRoom.channelOf_listen, if_pos rfl]
      exact congrArg (fun g => some (g, q)) hstream
  | read s =>
    obtain ⟨ch, rev, hch, rfl⟩ := read_cases h
    obtain ⟨hl, -⟩ := channels_some hch
    refine .read ?_ ?_ rfl rfl rfl
    · exact sameSubs_setOffice (.listen (MailRoom.subsOf_of_getElem? hl).symm)
    · intro e m
      rw [channelOf_setOffice]
      split
      · next he =>
        rw [Dispatcher.listen_room, MailRoom.channelOf_listen, he]
        split
        · next hm => rw [← hm, MailRoom.channelOf_of_getElem? hl]
        · rfl
      · rfl
  | _ => exact hok.elim

end Postal

end Tarantula
