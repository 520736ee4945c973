import Mathlib.Data.List.Nodup
import Tarantula.ReplyChannels

/-! A reply channel carries at most one request at a time, so it stays open while the loop
has to answer it, except where its lookup returns through `ctx.Done`. -/

namespace Tarantula

/-- The state of a lookup and its channel, by whether the loop has to answer it. -/
def Requester.Fits {α : Type} (r : Requester α) (pending : Prop) : Prop :=
  match r.phase with
  | .sending _ | .working _ => ¬pending ∧ r.rq.closed = false ∧ r.rq.buf = []
  | .waiting _ => r.rq.closed = false ∧ r.rq.buf.length ≤ 1 ∧ (pending → r.rq.buf = [])
  | .returning => ¬pending
  | .ended => pending → r.rq.closed = false ∧ r.rq.buf = []

theorem Requester.Fits.open {α : Type} {r : Requester α} {p : Prop} (h : r.Fits p) (hp : p) :
    r.rq.closed = false ∧ r.rq.buf = [] := by
  unfold Requester.Fits at h
  split at h
  · exact absurd hp h.1
  · exact absurd hp h.1
  · exact ⟨h.1, h.2.2 hp⟩
  · exact absurd hp h
  · exact h hp

theorem Requester.Fits.answered {α : Type} {r : Requester α} {p : Prop} (h : r.Fits p) (hp : p)
    (x : α) {q : Prop} (hq : ¬q) :
    Requester.Fits { r with rq := { r.rq with buf := r.rq.buf ++ [x] } } q := by
  obtain ⟨hc, hb⟩ := h.open hp
  unfold Requester.Fits at h ⊢
  split at h
  · exact absurd hp h.1
  · exact absurd hp h.1
  · next hph => simp [hph, hc, hb, hq]
  · exact absurd hp h
  · next hph => simp [hph, hq]

/-- A lookup that closes its channel on every way out may go through `ctx.Done` before it
has queued a request, or when the reply has come. -/
def Requester.mayGo {α : Type} (r : Requester α) : Bool :=
  match r.phase with
  | .waiting _ => !r.lookup.defersClose || !r.rq.buf.isEmpty
  | _ => true

theorem Requester.Fits.gone {α : Type} {r : Requester α} {p : Prop} (h : r.Fits p) {n : Nat}
    (hph : r.phase = .sending n ∨ r.phase = .waiting n) (hgo : r.mayGo = true) :
    Requester.Fits { r with phase := if r.lookup.defersClose then .returning else .ended } p := by
  rcases hph with hph | hph
  · simp only [Requester.Fits, hph] at h
    by_cases hd : r.lookup.defersClose = true
    · simpa [Requester.Fits, hd] using h.1
    · simp [Requester.Fits, hd, h.1]
  · simp only [Requester.Fits, hph] at h
    by_cases hd : r.lookup.defersClose = true
    · simp only [Requester.mayGo, hph, hd, Bool.not_true, Bool.false_or, Bool.not_eq_true',
        List.isEmpty_eq_false_iff] at hgo
      simpa [Requester.Fits, hd] using fun hp => hgo (h.2.2 hp)
    · simpa [Requester.Fits, hd] using fun hp => ⟨h.1, h.2.2 hp⟩

namespace Postoffice

variable {α : Type} {s t : Postoffice α}

def replyOf : RingRequest ⊕ TopicRequest → Option Nat
  | .inl q => some q.async
  | .inr q => q.replyTo

theorem replyOf_request (l : Lookup) (i : Nat) : replyOf (l.request i) = some i := by
  cases l <;> rfl

theorem replyTo_of_not_replies {q : TopicRequest} (h : ¬q.replies = true) : q.replyTo = none := by
  unfold TopicRequest.replies at h
  unfold TopicRequest.replyTo
  cases hq : q.opt <;> simp_all

theorem enqueue_pending {q : RingRequest ⊕ TopicRequest} (h : s.enqueue q = some t) :
    t.pending.Perm ((replyOf q).toList ++ s.pending) ∧ t.requesters = s.requesters ∧
      t.loop = s.loop := by
  cases q with
  | inl q =>
    simp only [enqueue] at h
    split at h
    · next c hc =>
      cases h
      rw [Chan.send_sent hc]
      refine ⟨?_, rfl, rfl⟩
      simp [pending, queued, replyOf]
    · cases h
  | inr q =>
    simp only [enqueue] at h
    split at h
    · next c hc =>
      cases h
      rw [Chan.send_sent hc]
      refine ⟨?_, rfl, rfl⟩
      cases hq : q.replyTo with
      | none => simp [pending, queued, replyOf, hq]
      | some i =>
        simp only [pending, queued, replyOf, hq, List.filterMap_append, List.filterMap_cons,
          List.filterMap_nil, Option.toList_some, List.append_assoc, List.singleton_append]
        rw [← List.append_assoc, ← List.append_assoc]
        exact List.perm_middle
    · cases h

theorem takeRing_pending (h : s.takeRing = some t) :
    t.pending.Perm s.pending ∧ t.requesters = s.requesters ∧ ∀ i, t.loop ≠ .panicked i := by
  unfold takeRing at h
  split at h
  · next q c hl hr =>
    cases h
    obtain ⟨rest, hb, rfl⟩ := Chan.receive_some hr
    refine ⟨?_, rfl, fun i hi => by simp at hi⟩
    simp only [pending, queued, hb, hl, List.map_cons, Option.toList_some, List.append_nil]
    exact List.perm_append_comm
  · next c hl hr =>
    cases h
    exact ⟨by simp [pending, queued, hl], rfl, fun i hi => by simp at hi⟩
  · cases h

theorem takeTopic_pending (h : s.takeTopic = some t) :
    t.pending.Perm s.pending ∧ t.requesters = s.requesters ∧ ∀ i, t.loop ≠ .panicked i := by
  unfold takeTopic at h
  split at h
  · next q c hl hr =>
    cases h
    obtain ⟨rest, hb, rfl⟩ := Chan.receive_some hr
    by_cases hq : q.replies = true
    · refine ⟨?_, rfl, fun i hi => by simp [hq] at hi⟩
      cases hi : q.replyTo with
      | none => simp [pending, queued, hb, hl, hq, hi]
      | some i =>
        simp only [pending, queued, hb, hl, hq, hi, if_true, List.filterMap_cons, Option.toList_some,
          List.append_nil, List.append_assoc]
        exact List.Perm.append_left _ List.perm_append_comm
    · refine ⟨?_, rfl, fun i hi => by simp [hq] at hi⟩
      simp [pending, queued, hb, hl, hq, replyTo_of_not_replies hq]
  · next c hl hr =>
    cases h
    exact ⟨by simp [pending, queued, hl], rfl, fun i hi => by simp at hi⟩
  · cases h

/-- What holds while no lookup goes away from a request that it has queued. -/
structure Answerable (s : Postoffice α) : Prop where
  alive : ∀ i, s.loop ≠ .panicked i
  once : s.pending.Nodup
  known : ∀ i ∈ s.pending, i < s.requesters.length
  fits : ∀ (i : Nat) (r : Requester α), s.requesters[i]? = some r → r.Fits (i ∈ s.pending)

theorem Answerable.initial : Answerable (initial : Postoffice α) where
  alive := by simp [Postoffice.initial]
  once := by simp [Postoffice.initial, pending, queued, Chan.make]
  known := by simp [Postoffice.initial, pending, queued, Chan.make]
  fits := by simp [Postoffice.initial]

theorem Answerable.perm (h : Answerable s) (hp : t.pending.Perm s.pending)
    (hr : t.requesters = s.requesters) (ha : ∀ i, t.loop ≠ .panicked i) : Answerable t where
  alive := ha
  once := hp.nodup_iff.mpr h.once
  known i hi := by
    rw [hr]
    exact h.known i (hp.mem_iff.mp hi)
  fits i r hir := by
    rw [hr] at hir
    rw [hp.mem_iff]
    exact h.fits i r hir

/-- The requester `i` has become `r`, and no other channel got or lost a request. -/
theorem Answerable.set (h : Answerable s) {i : Nat} {r : Requester α} (hlt : i < s.requesters.length)
    (ht : t.requesters = s.requesters.set i r) (ha : ∀ j, t.loop ≠ .panicked j)
    (hn : t.pending.Nodup) (hp : ∀ j, j ≠ i → (j ∈ t.pending ↔ j ∈ s.pending))
    (hr : r.Fits (i ∈ t.pending)) : Answerable t where
  alive := ha
  once := hn
  known j hj := by
    rw [ht, List.length_set]
    by_cases hji : j = i
    · exact hji ▸ hlt
    · exact h.known j ((hp j hji).mp hj)
  fits j r' hj := by
    rw [ht] at hj
    by_cases hji : j = i
    · subst hji
      rw [List.getElem?_set_self hlt, Option.some.injEq] at hj
      exact hj ▸ hr
    · rw [List.getElem?_set_ne (Ne.symm hji)] at hj
      rw [hp j hji]
      exact h.fits j r' hj

theorem Answerable.setRequester (h : Answerable s) {i : Nat} {r : Requester α}
    (hlt : i < s.requesters.length) (hr : r.Fits (i ∈ s.pending)) :
    Answerable (s.setRequester i r) :=
  h.set hlt rfl h.alive h.once (fun _ _ => Iff.rfl) hr

theorem Answerable.begin (h : Answerable s) (l : Lookup) :
    Answerable { s with requesters := s.requesters ++ [⟨l, .sending l.tries, .make l.cap⟩] } where
  alive := h.alive
  once := h.once
  known i hi := by
    have hlt := h.known i hi
    simp only [List.length_append, List.length_singleton]
    omega
  fits i r hir := by
    rcases Nat.lt_trichotomy i s.requesters.length with hlt | rfl | hgt
    · rw [List.getElem?_append_left hlt] at hir
      exact h.fits i r hir
    · rw [List.getElem?_concat_length, Option.some.injEq] at hir
      subst hir
      exact ⟨fun hi => Nat.lt_irrefl _ (h.known _ hi), rfl, rfl⟩
    · rw [List.getElem?_eq_none (by simp only [List.length_append, List.length_singleton]; omega)] at hir
      cases hir

theorem Answerable.reply (h : Answerable s) {x : α} (hs : s.reply x = some t) : Answerable t := by
  unfold Postoffice.reply at hs
  split at hs
  · next i hl =>
    obtain ⟨r, hr, hs⟩ := Option.bind_eq_some_iff.mp hs
    have hlt : i < s.requesters.length := (List.getElem?_eq_some_iff.mp hr).1
    have hpend : s.pending.Perm (i :: s.queued) := by
      simp only [pending, hl, Option.toList_some]
      exact List.perm_append_comm
    have hi : i ∈ s.pending := hpend.mem_iff.mpr List.mem_cons_self
    have hfit := h.fits i r hr
    have hnd := List.nodup_cons.mp (hpend.nodup_iff.mp h.once)
    split at hs
    · next hc =>
      rw [Chan.send_panics_iff, (hfit.open hi).1] at hc
      cases hc
    · cases hs
    · next c hc =>
      cases hs
      rw [Chan.send_sent hc]
      have hout : i ∉ s.queued ++ [] := by simpa using hnd.1
      refine h.set hlt rfl (fun j hj => by simp at hj) ?_ ?_ (hfit.answered hi x hout)
      · show (s.queued ++ []).Nodup
        rw [List.append_nil]
        exact hnd.2
      · intro j hji
        rw [hpend.mem_iff, List.mem_cons, or_iff_right hji]
        simp [pending, queued, Postoffice.setRequester]
  · cases hs

def Patient (s : Postoffice α) : LookupEvent α → Prop
  | .act i .done => s.requesters[i]?.all Requester.mayGo = true
  | _ => True

instance (s : Postoffice α) (e : LookupEvent α) : Decidable (Patient s e) := by
  unfold Patient
  split <;> infer_instance

theorem Answerable.enqueue (h : Answerable s) {i n : Nat} {r : Requester α}
    (hr : s.requesters[i]? = some r) (hph : r.phase = .sending n)
    (hs : s.enqueue (r.lookup.request i) = some t) (m : Nat) :
    Answerable (t.setRequester i { r with phase := .waiting m }) := by
  obtain ⟨hp, hreq, hloop⟩ := enqueue_pending hs
  rw [replyOf_request] at hp
  have hfit := h.fits i r hr
  simp only [Requester.Fits, hph] at hfit
  refine h.set (List.getElem?_eq_some_iff.mp hr).1 (by rw [← hreq]; rfl) ?_ ?_ ?_ ?_
  · intro j
    exact hloop ▸ h.alive j
  · exact hp.nodup_iff.mpr (List.nodup_cons.mpr ⟨hfit.1, h.once⟩)
  · intro j hji
    rw [show (t.setRequester i _).pending = t.pending from rfl, hp.mem_iff]
    simp [hji]
  · simp [Requester.Fits, hfit.2.1, hfit.2.2]

theorem Answerable.act (h : Answerable s) {i : Nat} {r : Requester α} {a : LookupAct}
    (hr : s.requesters[i]? = some r) (hok : Patient s (.act i a)) (hs : s.act i r a = some t) :
    Answerable t := by
  have hlt : i < s.requesters.length := (List.getElem?_eq_some_iff.mp hr).1
  have hfit := h.fits i r hr
  cases a with
  | enqueue =>
    simp only [Postoffice.act] at hs
    split at hs
    · next n hph =>
      obtain ⟨u, hu, rfl⟩ := Option.map_eq_some_iff.mp hs
      exact h.enqueue hr hph hu n
    · cases hs
  | done =>
    have hgo : r.mayGo = true := by simpa [Patient, hr] using hok
    simp only [Postoffice.act] at hs
    split at hs
    · next n hph =>
      split at hs
      · cases hs
        exact h.setRequester hlt (hfit.gone (.inl hph) hgo)
      · cases hs
    · next n hph =>
      split at hs
      · cases hs
        exact h.setRequester hlt (hfit.gone (.inr hph) hgo)
      · cases hs
    · cases hs
  | receive =>
    simp only [Postoffice.act] at hs
    split at hs
    · next n hph =>
      obtain ⟨⟨x, c⟩, hc, rfl⟩ := Option.map_eq_some_iff.mp hs
      simp only [Requester.Fits, hph] at hfit
      refine h.setRequester hlt ?_
      cases x with
      | none => simp [(Chan.receive_none hc).1] at hfit
      | some x =>
        obtain ⟨rest, hb, rfl⟩ := Chan.receive_some hc
        rw [hb] at hfit
        have hrest : rest = [] := List.eq_nil_of_length_eq_zero (by simpa using hfit.2.1)
        exact ⟨fun hp => (List.cons_ne_nil x rest) (hfit.2.2 hp), hfit.1, hrest⟩
    · cases hs
  | again =>
    simp only [Postoffice.act] at hs
    split at hs
    · next n hph =>
      cases hs
      simp only [Requester.Fits, hph] at hfit
      exact h.setRequester hlt hfit
    · cases hs
  | leave =>
    simp only [Postoffice.act] at hs
    split at hs
    · next n hph =>
      cases hs
      simp only [Requester.Fits, hph] at hfit
      exact h.setRequester hlt hfit.1
    · cases hs
  | close =>
    simp only [Postoffice.act] at hs
    split at hs
    · next hph =>
      obtain ⟨c, hc, rfl⟩ := Option.map_eq_some_iff.mp hs
      simp only [Requester.Fits, hph] at hfit
      exact h.setRequester hlt (fun hp => absurd hp hfit)
    · cases hs

theorem Answerable.step (h : Answerable s) {e : LookupEvent α} (hok : Patient s e)
    (hs : s.step e = some t) : Answerable t := by
  cases e with
  | begin l =>
    cases hs
    exact h.begin l
  | act i a =>
    obtain ⟨r, hr, hs⟩ := Option.bind_eq_some_iff.mp hs
    exact h.act hr hok hs
  | disconnect nodeId =>
    simp only [Postoffice.step] at hs
    obtain ⟨hp, hr, hl⟩ := enqueue_pending hs
    exact h.perm (by simpa [replyOf, TopicRequest.replyTo] using hp) hr (fun i => hl ▸ h.alive i)
  | takeRing =>
    obtain ⟨hp, hr, ha⟩ := takeRing_pending hs
    exact h.perm hp hr ha
  | takeTopic =>
    obtain ⟨hp, hr, ha⟩ := takeTopic_pending hs
    exact h.perm hp hr ha
  | reply x => exact h.reply hs
  | closeRing =>
    obtain ⟨c, hc, rfl⟩ := Option.map_eq_some_iff.mp hs
    rw [Chan.close_some hc]
    exact h.perm .rfl rfl h.alive
  | closeTopic =>
    obtain ⟨c, hc, rfl⟩ := Option.map_eq_some_iff.mp hs
    rw [Chan.close_some hc]
    exact h.perm .rfl rfl h.alive

/-- While lookups that close their channel wait for the reply to a request they have
queued, the loop never sends on a closed channel. -/
theorem replies_on_open_channels (h : Reaches step Patient (initial : Postoffice α) s) (i : Nat) :
    s.loop ≠ .panicked i := by
  have hs : Answerable s := h.invariant .initial (fun _ _ _ hi hok hst => hi.step hok hst)
  exact hs.alive i

/-- A `HashRing` that is cancelled when the reply is in its channel, a `TopicList` that is
cancelled before its request is queued, and a `Receive` that goes away while it waits. -/
theorem replies_on_open_channels_sample : ∃ s : Postoffice (List Node),
    Reaches step Patient initial s ∧ s.requesters.map (·.phase) = [.ended, .ended, .ended] ∧
      s.requesters.map (·.rq.closed) = [true, true, false] ∧ s.pending = [] ∧
      ∀ i, s.loop ≠ .panicked i := by
  obtain ⟨s, hr, hp, hc, hq⟩ := exists_reaches_of_checkedRun step Patient
    (fun s : Postoffice (List Node) => s.requesters.map (·.phase) = [.ended, .ended, .ended] ∧
      s.requesters.map (·.rq.closed) = [true, true, false] ∧ s.pending = []) initial
    [.begin .hashRing, .begin .topicList, .begin (.receive "w"), .act 0 .enqueue, .takeRing,
      .act 1 .done, .act 2 .enqueue, .reply [Node.ofEndpoint "a"], .act 0 .done, .act 0 .close,
      .act 1 .close, .act 2 .done, .takeTopic, .reply []]
    (by decide +kernel)
  exact ⟨s, hr, hp, hc, hq, replies_on_open_channels hr⟩

/-- The request is queued, the handler is cancelled and closes its channel, and then the
loop takes the request and replies. -/
theorem replies_on_closed_channel :
    (∃ s : Postoffice (List Node), Reaches step (fun _ _ => True) initial s ∧ s.loop = .panicked 0 ∧
      s.requesters.map (·.lookup) = [.hashRing]) ∧
    (∃ s : Postoffice (List Node), Reaches step (fun _ _ => True) initial s ∧ s.loop = .panicked 0 ∧
      s.requesters.map (·.lookup) = [.topicList]) ∧
    ∃ s : Postoffice (List Node), Reaches step (fun _ _ => True) initial s ∧ s.loop = .panicked 0 ∧
      s.requesters.map (·.lookup) = [.taskList] :=
  ⟨exists_reaches_of_checkedRun step _
      (fun s : Postoffice (List Node) => s.loop = .panicked 0 ∧ s.requesters.map (·.lookup) = [.hashRing])
      initial [.begin .hashRing, .act 0 .enqueue, .act 0 .done, .act 0 .close, .takeRing, .reply []]
      (by decide +kernel),
    exists_reaches_of_checkedRun step _
      (fun s : Postoffice (List Node) => s.loop = .panicked 0 ∧ s.requesters.map (·.lookup) = [.topicList])
      initial [.begin .topicList, .act 0 .enqueue, .act 0 .done, .act 0 .close, .takeTopic, .reply []]
      (by decide +kernel),
    exists_reaches_of_checkedRun step _
      (fun s : Postoffice (List Node) => s.loop = .panicked 0 ∧ s.requesters.map (·.lookup) = [.taskList])
      initial [.begin .taskList, .act 0 .enqueue, .act 0 .done, .act 0 .close, .takeTopic, .reply []]
      (by decide +kernel)⟩

end Postoffice

end Tarantula
