import Tarantula.MailRoom
import Tarantula.Runs

/-! To whom the mail of a transaction goes. The loop stops where a node comes again that it
took for the first one of the pool: it goes once round a pool that has every node once, but a
node that was removed and is added again stands in the pool twice. -/

namespace Tarantula

namespace MailRoom

def Subscribed (m : MailRoom) (tn n : String) : Prop := ∃ ch, m.listeners[n]? = some ch ∧ tn ∈ ch.subs

def Full (m : MailRoom) (n : String) : Prop :=
  ∃ ch, m.listeners[n]? = some ch ∧ ch.rev.cap ≤ ch.rev.buf.length

/-- There is a subscriber, and all of them have room. -/
def Open (m : MailRoom) (tn : String) : Prop :=
  (∃ n, m.Subscribed tn n) ∧ ∀ n, m.Subscribed tn n → ¬ m.Full n

def queue (m : MailRoom) (n : String) : Option (List Mail) := m.listeners[n]?.map (·.rev.buf)

/-- The mail is enqueued to one subscriber, or to none if there are none or not all of them
have room. -/
structure Dispatched (m m' : MailRoom) (mt : Meta) : Prop where
  one : m.Open (transSubPrefix ++ mt.name) → ∃ n, m.Subscribed (transSubPrefix ++ mt.name) n ∧
    ∀ k, m'.queue k = if k = n then (m.queue k).map (· ++ [.trans mt]) else m.queue k
  none : ¬ m.Open (transSubPrefix ++ mt.name) → ∀ k, m'.queue k = m.queue k

/-- The first node of the path that has a listener is not the empty one and comes only once. -/
def Passes (m : MailRoom) (path : List String) : Prop :=
  ∃ h t, (path.filter fun k => k ∈ m.listeners ∨ k = "") = h :: t ∧ h ≠ "" ∧ h ∉ t

/-- The node is the first subscriber of the pool, and nothing stops the loop before it. -/
def NextInLine (m : MailRoom) (tn n : String) : Prop :=
  m.Subscribed tn n ∧ ∃ pre post, m.listenerPool = pre ++ n :: post ∧
    (∀ k ∈ pre, ¬ m.Subscribed tn k) ∧ m.Passes (pre ++ [n])

section Loop

variable {listeners : Std.ExtTreeMap String ReceiverAsync} {tn : String}

theorem passesFrom_set {lk : String} (hlk : lk ≠ "") (path : List String) :
    PassesFrom listeners lk path ↔ lk ∉ path := by
  induction path with
  | nil => simp [PassesFrom]
  | cons k path ih => simp [PassesFrom, hlk, ih]

theorem passesFrom_iff {path : List String} (hne : ∃ k ∈ path, k ∈ listeners) :
    PassesFrom listeners "" path ↔
      ∃ h t, (path.filter fun k => k ∈ listeners ∨ k = "") = h :: t ∧ h ≠ "" ∧ h ∉ t := by
  induction path with
  | nil => simp at hne
  | cons k path ih =>
    by_cases hk : k = ""
    · subst hk
      simp [PassesFrom]
    · by_cases hl : k ∈ listeners
      · simp only [PassesFrom, hl, and_self, if_true, passesFrom_set hk, ne_eq, eq_comm, hk,
          not_false_eq_true, true_and]
        have hmem : k ∈ (path.filter fun k => k ∈ listeners ∨ k = "") ↔ k ∈ path := by
          simp [List.mem_filter, hl]
        rw [List.filter_cons_of_pos (by simp [hl]), ← hmem]
        constructor
        · intro hk'
          exact ⟨k, _, rfl, hk, hk'⟩
        · rintro ⟨h, t, he, -, ht⟩
          obtain ⟨rfl, rfl⟩ := List.cons.inj he
          exact ht
      · have hrest : ∃ k ∈ path, k ∈ listeners := by
          obtain ⟨k', hk', hl'⟩ := hne
          rcases List.mem_cons.mp hk' with rfl | hk'
          · exact absurd hl' hl
          · exact ⟨k', hk', hl'⟩
        rw [List.filter_cons_of_neg (by simp [hl, hk]), ← ih hrest]
        simp [PassesFrom, hl, Ne.symm hk]

theorem transLoop_finds {pre post moved : List String} {lk n : String} {ch : ReceiverAsync}
    (hch : listeners[n]? = some ch) (hsub : tn ∈ ch.subs)
    (hpre : ∀ k ∈ pre, ¬ ∃ ch, listeners[k]? = some ch ∧ tn ∈ ch.subs)
    (hpass : PassesFrom listeners lk (pre ++ [n])) :
    (transLoop listeners tn (pre ++ n :: post) moved lk).2 = some (n, ch) := by
  induction pre generalizing moved lk with
  | nil => simp [transLoop, hpass.1, hch, hsub]
  | cons k pre ih =>
    have hrest := fun k hk => hpre k (List.mem_cons_of_mem _ hk)
    have hk : ¬ ∃ ch, listeners[k]? = some ch ∧ tn ∈ ch.subs := hpre k (List.mem_cons_self ..)
    obtain ⟨hstop, hpass⟩ := hpass
    rw [List.cons_append, transLoop, if_neg hstop]
    cases hnc : listeners[k]? with
    | none =>
      have hl : k ∉ listeners := ExtMap.not_mem_of_getElem? hnc
      exact ih hrest (by simpa [hl] using hpass)
    | some nc =>
      have hl : k ∈ listeners := ExtMap.mem_of_getElem? hnc
      have hns : tn ∉ nc.subs := fun h => hk ⟨nc, hnc, h⟩
      simp only [hns, if_false]
      exact ih hrest (by simpa [hl] using hpass)

theorem nextInLine_iff (m : MailRoom) (n : String) : m.NextInLine tn n ↔
    (transLoop m.listeners tn m.listenerPool [] "").2.map Prod.fst = some n := by
  constructor
  · rintro ⟨⟨ch, hch, hsub⟩, pre, post, hpool, hpre, hp⟩
    have hpass := (passesFrom_iff ⟨n, by simp, ExtMap.mem_of_getElem? hch⟩).mpr hp
    rw [hpool, transLoop_finds hch hsub hpre hpass]
    rfl
  · intro h
    obtain ⟨⟨k, ch⟩, hr, rfl⟩ := Option.map_eq_some_iff.mp h
    obtain ⟨hch, hsub, pre, post, hpool, hpre, hpass⟩ := transLoop_found hr
    have hp := (passesFrom_iff ⟨k, by simp, ExtMap.mem_of_getElem? hch⟩).mp hpass
    exact ⟨⟨ch, hch, hsub⟩, pre, post, hpool, hpre, hp⟩

end Loop

section Invariant

variable {own : String} {m m' : MailRoom} {e : RoomEvent} {nk name : String} {ch : ReceiverAsync}

/-- Every listener is in the pool, and its channel is open. -/
structure Kept (m : MailRoom) : Prop where
  pooled : ∀ n ∈ m.listeners, n ∈ m.listenerPool
  unclosed : ∀ (n : String) (ch : ReceiverAsync), m.listeners[n]? = some ch → ch.rev.closed = false

theorem Kept.listen (h : m.Kept) (name : String) (hc : ch.rev.closed = false) : (m.listen name ch).Kept where
  pooled n hn := by
    have hn : n = name ∨ n ∈ m.listeners := by
      rwa [MailRoom.listen, ExtMap.mem_insert] at hn
    unfold MailRoom.listen
    by_cases hname : name ∈ m.listeners
    · rw [if_pos hname]
      rcases hn with rfl | hn
      · exact h.pooled n hname
      · exact h.pooled n hn
    · rw [if_neg hname]
      rcases hn with rfl | hn
      · simp
      · simp [h.pooled n hn]
  unclosed n ch' hch := by
    rw [MailRoom.listen, ExtMap.getElem?_insert] at hch
    split at hch
    · obtain rfl := Option.some.inj hch
      exact hc
    · exact h.unclosed n ch' hch

theorem listen_pool (h : name ∈ m.listeners) (ch : ReceiverAsync) :
    (m.listen name ch).listenerPool = m.listenerPool := if_pos h

theorem mem_listen {n : String} (h : n ∈ m.listeners) (ch : ReceiverAsync) :
    n ∈ (m.listen name ch).listeners := by
  rw [MailRoom.listen, ExtMap.mem_insert]
  exact .inr h

theorem post_cases (m : MailRoom) (nk : String) (ch : ReceiverAsync) (mail : Mail) :
    m.post nk ch mail = m ∨ ∃ rev, rev.closed = ch.rev.closed ∧
      m.post nk ch mail = m.listen nk { ch with rev } := by
  unfold post
  cases hs : ch.rev.send mail with
  | panics => exact .inl rfl
  | blocks => exact .inl rfl
  | sent rev => exact .inr ⟨rev, by rw [Chan.send_sent hs], rfl⟩

theorem post_kept (h : m.Kept) (hnk : nk ∈ m.listeners) (hc : ch.rev.closed = false) (mail : Mail) :
    (m.post nk ch mail).Kept ∧ (m.post nk ch mail).listenerPool = m.listenerPool ∧
      ∀ n ∈ m.listeners, n ∈ (m.post nk ch mail).listeners := by
  rcases post_cases m nk ch mail with he | ⟨rev, hrev, he⟩
  · rw [he]
    exact ⟨h, rfl, fun _ hn => hn⟩
  · rw [he]
    exact ⟨h.listen nk (hrev.trans hc), listen_pool hnk _, fun _ hn => mem_listen hn _⟩

theorem topicLoop_kept {chs : List (String × ReceiverAsync)} (h : m.Kept)
    (hchs : ∀ p ∈ chs, p.1 ∈ m.listeners ∧ p.2.rev.closed = false) (name : String) :
    (topicLoop name chs m).Kept ∧ (topicLoop name chs m).listenerPool = m.listenerPool := by
  induction chs generalizing m with
  | nil => exact ⟨h, rfl⟩
  | cons p rest ih =>
    obtain ⟨nk, ch⟩ := p
    obtain ⟨hnk, hc⟩ := hchs (nk, ch) (List.mem_cons_self ..)
    have hrest := fun p hp => hchs p (List.mem_cons_of_mem _ hp)
    by_cases hsub : name ∈ ch.subs
    · obtain ⟨hkept, hpool, hmem⟩ := post_kept h hnk hc (.topic name)
      have hih := ih hkept fun p hp => ⟨hmem _ (hrest p hp).1, (hrest p hp).2⟩
      simp only [topicLoop, hsub, if_true]
      exact ⟨hih.1, hih.2.trans hpool⟩
    · simp only [topicLoop, hsub, if_false]
      exact ih h hrest

theorem topicMail_kept (h : m.Kept) (name : String) :
    (m.topicMail name).Kept ∧ (m.topicMail name).listenerPool = m.listenerPool := by
  refine topicLoop_kept h (fun p hp => ?_) name
  have hget := Std.ExtTreeMap.mem_toList_iff_getElem?_eq_some.mp hp
  exact ⟨ExtMap.mem_of_getElem? hget, h.unclosed _ _ hget⟩

theorem transMail_kept (h : m.Kept) {mt : Meta} (hm : m.transMail mt = some m') :
    m'.Kept ∧ m'.listenerPool.Subperm m.listenerPool := by
  rw [transMail_eq, Option.some.injEq] at hm
  have hsub : (transLoop m.listeners (transSubPrefix ++ mt.name) m.listenerPool [] "").1.Subperm
      (m.listenerPool ++ []) := transLoop_subperm ..
  rw [List.append_nil] at hsub
  have hkept : Kept { m with listenerPool :=
      (transLoop m.listeners (transSubPrefix ++ mt.name) m.listenerPool [] "").1 } :=
    ⟨fun n hn => mem_transLoop hn (by simpa using h.pooled n hn), h.unclosed⟩
  unfold transPost at hm
  dsimp only at hm
  split at hm
  · subst hm
    exact ⟨hkept, hsub⟩
  · next nk nc hfound =>
    subst hm
    obtain ⟨hch, -⟩ := transLoop_found hfound
    obtain ⟨hk, hp, -⟩ := post_kept hkept (ExtMap.mem_of_getElem? hch) (h.unclosed _ _ hch) (.trans mt)
    exact ⟨hk, by rw [hp]; exact hsub⟩

def adds (own : String) : RoomEvent → Option String
  | .request (.receiverStart name) => some name
  | .request (.register sub) =>
    if !sub.routed.deleting ∧ sub.routed.endpoint = own then some sub.routed.nodeId else none
  | _ => none

/-- What an event makes of the pool. -/
def Pools (own : String) (m m' : MailRoom) (e : RoomEvent) : Prop :=
  (∃ n ∈ adds own e, n ∉ m.listeners ∧ m'.listenerPool = m.listenerPool ++ [n]) ∨
    m'.listenerPool.Subperm m.listenerPool

theorem pools_listen {n : String} (hn : n ∈ adds own e) (ch : ReceiverAsync) :
    Pools own m (m.listen n ch) e := by
  by_cases h : n ∈ m.listeners
  · exact .inr (by rw [listen_pool h])
  · exact .inl ⟨n, hn, h, if_neg h⟩

theorem relisten_kept {old : ReceiverAsync} (h : m.Kept) (hold : m.listeners[name]? = some old)
    (hc : ch.rev.closed = false) : (m.listen name ch).Kept ∧ Pools own m (m.listen name ch) e :=
  ⟨h.listen name hc, .inr (by rw [listen_pool (ExtMap.mem_of_getElem? hold)])⟩

theorem register_kept (h : m.Kept) (sub : Subscription) :
    (m.registerSubscription own sub).Kept ∧
      Pools own m (m.registerSubscription own sub) (.request (.register sub)) := by
  unfold registerSubscription
  by_cases hdel : sub.routed.deleting = true
  · simp only [hdel, if_true]
    by_cases hown : sub.routed.endpoint = own
    · simp only [hown, if_true]
      cases hch : m.listeners[sub.routed.nodeId]? with
      | none => exact ⟨h, .inr (.refl _)⟩
      | some listener =>
        have hc := h.unclosed _ _ hch
        exact relisten_kept h hch hc
    · simp only [hown, if_false]
      exact ⟨h, .inr (.refl _)⟩
  · by_cases hown : sub.routed.endpoint = own
    · have hadds : sub.routed.nodeId ∈ adds own (.request (.register sub)) := by
        simp [adds, hdel, hown]
      simp only [hdel, hown, ne_eq, not_true_eq_false, if_false]
      refine ⟨h.listen _ ?_, pools_listen hadds _⟩
      cases hch : m.listeners[sub.routed.nodeId]? with
      | none => rfl
      | some listener =>
        have hc := h.unclosed _ _ hch
        exact hc
    · simp only [hdel, hown, ne_eq, not_false_eq_true, if_true]
      exact ⟨h, .inr (.refl _)⟩

theorem remove_kept (h : m.Kept) (name : String) (qChan : Nat) :
    (m.receiverRemove name qChan).Kept ∧ (m.receiverRemove name qChan).listenerPool = m.listenerPool := by
  unfold receiverRemove
  split
  · exact ⟨h, rfl⟩
  · split
    · refine ⟨⟨fun n hn => ?_, fun n ch hch => ?_⟩, rfl⟩
      · exact h.pooled n (Std.ExtTreeMap.mem_of_mem_erase hn)
      · rw [ExtMap.getElem?_erase] at hch
        split at hch
        · cases hch
        · exact h.unclosed n ch hch
    · exact ⟨h, rfl⟩

/-- What an event does to the room: the listeners stay in the pool, to which at most the node
is added for which a listener is made. -/
theorem step_kept (h : m.Kept) (he : m.step own e = some m') : m'.Kept ∧ Pools own m m' e := by
  cases e with
  | request req =>
    cases req with
    | nodeAdded | nodeRemoved _ | removeSubs _ =>
      obtain rfl := Option.some.inj he
      exact ⟨h, .inr (.refl _)⟩
    | register sub =>
      obtain rfl := Option.some.inj he
      exact register_kept h sub
    | receiverStart name =>
      obtain rfl := Option.some.inj he
      have hs : Kept { m with streams := m.streams + 1 } := ⟨h.pooled, h.unclosed⟩
      exact ⟨hs.listen name rfl, pools_listen (m := { m with streams := m.streams + 1 }) rfl _⟩
    | receiverEnd name =>
      have he : m.receiverEnd name = some m' := he
      unfold receiverEnd at he
      split at he
      · obtain rfl := Option.some.inj he
        exact ⟨h, .inr (.refl _)⟩
      · next ch hch =>
        split at he
        · obtain rfl := Option.some.inj he
          have hc := h.unclosed _ _ hch
          exact relisten_kept h hch hc
        · cases he
    | mail mail =>
      cases mail with
      | topic name =>
        obtain rfl := Option.some.inj he
        obtain ⟨hk, hp⟩ := topicMail_kept h name
        exact ⟨hk, .inr (by rw [hp])⟩
      | trans mt =>
        obtain ⟨hk, hp⟩ := transMail_kept h he
        exact ⟨hk, .inr hp⟩
  | receiverRemove name qChan =>
    obtain rfl := Option.some.inj he
    obtain ⟨hk, hp⟩ := remove_kept h name qChan
    exact ⟨hk, .inr (by rw [hp])⟩
  | received name =>
    have he : m.received name = some m' := he
    obtain ⟨ch, hch, hr⟩ := Option.bind_eq_some_iff.mp he
    obtain ⟨⟨x, rev⟩, hrev, rfl⟩ := Option.map_eq_some_iff.mp hr
    have hclosed : rev.closed = false := by
      rw [Chan.receive_closed hrev]
      exact h.unclosed _ _ hch
    exact relisten_kept h hch hclosed

theorem Kept.empty : Kept empty := ⟨by simp [MailRoom.empty], by simp [MailRoom.empty]⟩

theorem kept_of_reaches {ok : MailRoom → RoomEvent → Prop} (h : Reaches (step own) ok empty m) : m.Kept :=
  h.invariant .empty fun _ _ _ hk _ he => (step_kept hk he).1

end Invariant

section Dispatch

variable {own tn n : String} {m m' : MailRoom} {ch : ReceiverAsync} {mt : Meta}

theorem queue_of_getElem? (h : m.listeners[n]? = some ch) : m.queue n = some ch.rev.buf := by
  rw [queue, h, Option.map_some]

theorem queue_listen (m : MailRoom) (nk k : String) (ch : ReceiverAsync) :
    (m.listen nk ch).queue k = if k = nk then some ch.rev.buf else m.queue k := by
  unfold queue listen
  rw [ExtMap.getElem?_insert]
  by_cases h : nk = k
  · rw [if_pos h, if_pos h.symm, Option.map_some]
  · rw [if_neg h, if_neg (Ne.symm h)]

theorem full_iff (h : m.listeners[n]? = some ch) : m.Full n ↔ ch.rev.cap ≤ ch.rev.buf.length := by
  constructor
  · rintro ⟨ch', hch', hfull⟩
    obtain rfl := Option.some.inj (hch'.symm.trans h)
    exact hfull
  · intro hfull
    exact ⟨ch, h, hfull⟩

theorem queue_post (pool : List String) (hch : m.listeners[n]? = some ch) (hc : ch.rev.closed = false)
    (mail : Mail) (k : String) :
    (post { m with listenerPool := pool } n ch mail).queue k =
      if k = n ∧ ch.rev.buf.length < ch.rev.cap then (m.queue k).map (· ++ [mail]) else m.queue k := by
  unfold post
  by_cases hroom : ch.rev.buf.length < ch.rev.cap
  · have hs : ch.rev.send mail = .sent { ch.rev with buf := ch.rev.buf ++ [mail] } := by
      simp [Chan.send, hc, hroom]
    simp only [hs, queue_listen, hroom, and_true]
    by_cases hk : k = n
    · subst hk
      simp [queue_of_getElem? hch]
    · simp only [hk, if_false]
      rfl
  · have hs : ch.rev.send mail = .blocks := by simp [Chan.send, hc, hroom]
    simp only [hs, hroom, and_false, if_false]
    rfl

theorem dispatched_kept_iff (hq : ∀ k, m'.queue k = m.queue k) :
    Dispatched m m' mt ↔ ¬ m.Open (transSubPrefix ++ mt.name) := by
  constructor
  · intro h ho
    obtain ⟨n, ⟨ch, hch, -⟩, hn⟩ := h.one ho
    have hlast := hn n
    rw [hq n, if_pos rfl, queue_of_getElem? hch, Option.map_some] at hlast
    simp at hlast
  · intro ho
    exact ⟨fun h => absurd h ho, fun _ => hq⟩

theorem dispatched_posted_iff (hsub : m.Subscribed (transSubPrefix ++ mt.name) n)
    (hq : ∀ k, m'.queue k = if k = n then (m.queue k).map (· ++ [.trans mt]) else m.queue k) :
    Dispatched m m' mt ↔ m.Open (transSubPrefix ++ mt.name) := by
  constructor
  · intro h
    by_contra ho
    obtain ⟨ch, hch, -⟩ := hsub
    have hlast := h.none ho n
    rw [hq n, if_pos rfl, queue_of_getElem? hch, Option.map_some] at hlast
    simp at hlast
  · intro ho
    exact ⟨fun _ => ⟨n, hsub, hq⟩, fun h => absurd ho h⟩

/-- The mail is enqueued as it should be exactly where the loop comes to a subscriber if all of
them have room, and to one that has none if some have none. -/
theorem dispatched_iff (hkept : m.Kept) (hm : m.transMail mt = some m') :
    Dispatched m m' mt ↔
      (m.Open (transSubPrefix ++ mt.name) → ∃ n, m.NextInLine (transSubPrefix ++ mt.name) n) ∧
      ((∃ n, m.Subscribed (transSubPrefix ++ mt.name) n ∧ m.Full n) →
        ∀ n, m.NextInLine (transSubPrefix ++ mt.name) n → m.Full n) := by
  rw [transMail_eq, Option.some.injEq] at hm
  cases hr : (transLoop m.listeners (transSubPrefix ++ mt.name) m.listenerPool [] "").2 with
  | none =>
    have hno (n : String) : ¬ m.NextInLine (transSubPrefix ++ mt.name) n := by
      simp [nextInLine_iff, hr]
    have hq (k : String) : m'.queue k = m.queue k := by
      rw [← hm, transPost, hr]
      rfl
    rw [dispatched_kept_iff hq]
    simp [hno]
  | some p =>
    obtain ⟨n, ch⟩ := p
    obtain ⟨hch, hsub, -⟩ := transLoop_found hr
    have hnext (k : String) : m.NextInLine (transSubPrefix ++ mt.name) k ↔ n = k := by
      simp [nextInLine_iff, hr]
    have hq (k : String) : m'.queue k = if k = n ∧ ch.rev.buf.length < ch.rev.cap then
        (m.queue k).map (· ++ [.trans mt]) else m.queue k := by
      rw [← hm, transPost, hr]
      exact queue_post _ hch (hkept.unclosed n ch hch) (.trans mt) k
    simp only [hnext, exists_eq', implies_true, true_and, forall_eq', full_iff hch]
    by_cases hroom : ch.rev.buf.length < ch.rev.cap
    · simp only [hroom, and_true] at hq
      rw [dispatched_posted_iff ⟨ch, hch, hsub⟩ hq]
      constructor
      · rintro ho ⟨k, hk, hfull⟩
        exact absurd hfull (ho.2 k hk)
      · intro h
        refine ⟨⟨n, ch, hch, hsub⟩, fun k hk hfull => ?_⟩
        exact Nat.not_le.mpr hroom (h ⟨k, hk, hfull⟩)
    · simp only [hroom, and_false, if_false] at hq
      rw [dispatched_kept_iff hq]
      constructor
      · intro _ _
        exact Nat.not_lt.mp hroom
      · intro _ ho
        exact ho.2 n ⟨ch, hch, hsub⟩ ((full_iff hch).mpr (Nat.not_lt.mp hroom))

/-- No listener is made for the empty node, nor for a node that stands in the pool without a
listener. -/
def Tidy (own : String) (m : MailRoom) (e : RoomEvent) : Prop :=
  ∀ n ∈ adds own e, n ≠ "" ∧ (n ∈ m.listeners ∨ n ∉ m.listenerPool)

instance decidableTidy (own : String) (m : MailRoom) (e : RoomEvent) : Decidable (Tidy own m e) :=
  inferInstanceAs (Decidable (∀ n ∈ adds own e, n ≠ "" ∧ (n ∈ m.listeners ∨ n ∉ m.listenerPool)))

theorem pool_of_tidy (h : Reaches (step own) (Tidy own) empty m) :
    m.Kept ∧ m.listenerPool.Nodup ∧ "" ∉ m.listenerPool := by
  refine h.invariant (I := fun m => m.Kept ∧ m.listenerPool.Nodup ∧ "" ∉ m.listenerPool)
    ⟨.empty, by simp [empty], by simp [empty]⟩ ?_
  rintro s e t ⟨hkept, hnodup, hempty⟩ htidy he
  obtain ⟨hkept', ⟨n, hadds, hnew, hpool⟩ | hpool⟩ := step_kept hkept he
  · obtain ⟨hne, hold⟩ := htidy n hadds
    have hn : n ∉ s.listenerPool := hold.resolve_left hnew
    rw [hpool]
    refine ⟨hkept', List.nodup_append.mpr ⟨hnodup, List.nodup_singleton n, ?_⟩, ?_⟩
    · rintro a ha b hb rfl
      exact hn (List.mem_singleton.mp hb ▸ ha)
    · simp [hempty, Ne.symm hne]
  · obtain ⟨l, hperm, hl⟩ := hpool
    refine ⟨hkept', hperm.nodup_iff.mp (hnodup.sublist hl), fun h => ?_⟩
    exact hempty (hl.subset (hperm.mem_iff.mpr h))

/-- In a pool that has every node once the loop comes to the first subscriber. -/
theorem exists_nextInLine (hkept : m.Kept) (hnodup : m.listenerPool.Nodup) (hempty : "" ∉ m.listenerPool)
    (hsub : m.Subscribed tn n) : ∃ k, m.NextInLine tn k := by
  classical
  have hmem : n ∈ m.listenerPool := by
    obtain ⟨ch, hch, -⟩ := hsub
    exact hkept.pooled n (ExtMap.mem_of_getElem? hch)
  cases hfind : m.listenerPool.find? fun k => m.Subscribed tn k with
  | none =>
    have hno := List.find?_eq_none.mp hfind n hmem
    exact absurd (decide_eq_true hsub) hno
  | some k =>
    obtain ⟨hk, pre, post, hpool, hpre⟩ := List.find?_eq_some_iff_append.mp hfind
    have hk : m.Subscribed tn k := of_decide_eq_true hk
    have hkl : k ∈ m.listeners := by
      obtain ⟨ch, hch, -⟩ := hk
      exact ExtMap.mem_of_getElem? hch
    have hpart : (pre ++ [k]).Sublist m.listenerPool := by
      rw [hpool]
      exact List.Sublist.append_left (List.singleton_sublist.mpr (List.mem_cons_self ..)) pre
    refine ⟨k, hk, pre, post, hpool, fun j hj => by simpa using hpre j hj, ?_⟩
    have hfilter := (List.filter_sublist (p := fun k => k ∈ m.listeners ∨ k = "")).trans hpart
    have hk' : k ∈ (pre ++ [k]).filter fun k => k ∈ m.listeners ∨ k = "" := by simp [hkl]
    unfold Passes
    generalize (pre ++ [k]).filter (fun k => k ∈ m.listeners ∨ k = "") = path at hfilter hk'
    cases path with
    | nil => cases hk'
    | cons h t =>
      refine ⟨h, t, rfl, ?_, (List.nodup_cons.mp (hnodup.sublist hfilter)).1⟩
      rintro rfl
      exact hempty (hfilter.subset (List.mem_cons_self ..))

theorem open_iff : m.Open tn ↔ (∃ p ∈ m.listeners.toList, tn ∈ p.2.subs) ∧
    ∀ p ∈ m.listeners.toList, tn ∈ p.2.subs → ¬ p.2.rev.cap ≤ p.2.rev.buf.length := by
  simp only [Open, Subscribed, Prod.exists, Prod.forall,
    Std.ExtTreeMap.mem_toList_iff_getElem?_eq_some]
  refine and_congr (exists_congr fun n => Iff.rfl) (forall_congr' fun n => ?_)
  constructor
  · intro h ch hch hsub
    rw [← full_iff hch]
    exact h ⟨ch, hch, hsub⟩
  · rintro h ⟨ch, hch, hsub⟩
    rw [full_iff hch]
    exact h ch hch hsub

instance decidableOpen (m : MailRoom) (tn : String) : Decidable (m.Open tn) :=
  decidable_of_iff _ open_iff.symm

/-- A mail that comes to no one, although all its subscribers have room. -/
theorem missed_of_open (mt : Meta) (ho : m.Open (transSubPrefix ++ mt.name))
    (hr : (transLoop m.listeners (transSubPrefix ++ mt.name) m.listenerPool [] "").2.isNone) :
    let pool := (transLoop m.listeners (transSubPrefix ++ mt.name) m.listenerPool [] "").1
    m.transMail mt = some { m with listenerPool := pool } ∧
      ¬ Dispatched m { m with listenerPool := pool } mt := by
  intro pool
  constructor
  · rw [transMail_eq, transPost, Option.isNone_iff_eq_none.mp hr]
  · intro hd
    have hq (k : String) : ({ m with listenerPool := pool } : MailRoom).queue k = m.queue k := rfl
    exact (dispatched_kept_iff hq).mp hd ho

theorem trans_mail_dispatch (h : Reaches (step own) (fun _ _ => True) empty m) (mt : Meta) :
    (∃ r, ∀ turns, m.listenerPool.length < turns →
      transFor m.listeners (transSubPrefix ++ mt.name) turns m.listenerPool "" = some r) ∧
    ∃ m', m.transMail mt = some m' ∧ (∀ n ∈ m'.listeners, n ∈ m'.listenerPool) ∧
      (Dispatched m m' mt ↔
        (m.Open (transSubPrefix ++ mt.name) → ∃ n, m.NextInLine (transSubPrefix ++ mt.name) n) ∧
        ((∃ n, m.Subscribed (transSubPrefix ++ mt.name) n ∧ m.Full n) →
          ∀ n, m.NextInLine (transSubPrefix ++ mt.name) n → m.Full n)) ∧
      (Reaches (step own) (Tidy own) empty m →
        (∀ n, m.Subscribed (transSubPrefix ++ mt.name) n → ¬ m.Full n) → Dispatched m m' mt) := by
  have hkept := kept_of_reaches h
  have hm := transMail_eq m mt
  refine ⟨⟨_, fun turns ht => transFor_pool ht⟩, _, hm, (transMail_kept hkept hm).1.pooled,
    dispatched_iff hkept hm, fun htidy hroom => ?_⟩
  obtain ⟨-, hnodup, hempty⟩ := pool_of_tidy htidy
  rw [dispatched_iff hkept hm]
  constructor
  · rintro ⟨⟨n, hsub⟩, -⟩
    exact exists_nextInLine hkept hnodup hempty hsub
  · rintro ⟨n, hsub, hfull⟩
    exact absurd hfull (hroom n hsub)

theorem trans_mail_dispatch_registered :
    ∃ m m', Reaches (step "office") (fun _ _ => True) empty m ∧ m.Open (transSubPrefix ++ "pay") ∧
      m.transMail { (default : Meta) with name := "pay" } = some m' ∧
      Dispatched m m' { (default : Meta) with name := "pay" } := by
  obtain ⟨m, hm, ho⟩ := exists_reaches_of_checkedRun (step "office") (Tidy "office")
    (fun m => m.Open (transSubPrefix ++ "pay")) empty
    [.request (.receiverStart "x"), .request (.receiverStart "y"),
      .request (.register ⟨Tarantula.transMail, "y", "", "pay", "office", false⟩)] (by decide +kernel)
  have hreach : Reaches (step "office") (fun _ _ => True) empty m := hm.weaken fun _ _ _ => trivial
  obtain ⟨-, m', hm', -, -, hd⟩ := trans_mail_dispatch hreach { (default : Meta) with name := "pay" }
  exact ⟨m, m', hreach, ho, hm', hd hm ho.2⟩

/-- A node that was removed and is back stands twice in the pool, and the loop ends where it
meets it again. At the empty node it ends at once, and stays there with every later mail. -/
theorem trans_mail_misses_subscriber :
    (∃ m m', Reaches (step "office") (fun _ _ => True) empty m ∧ m.listenerPool = ["x", "x", "y"] ∧
      m.Open (transSubPrefix ++ "pay") ∧
      m.transMail { (default : Meta) with name := "pay" } = some m' ∧
      ¬ Dispatched m m' { (default : Meta) with name := "pay" }) ∧
    ∃ m, Reaches (step "office") (fun _ _ => True) empty m ∧ m.listenerPool = ["", "y"] ∧
      m.Open (transSubPrefix ++ "pay") ∧
      m.transMail { (default : Meta) with name := "pay" } = some m ∧
      ¬ Dispatched m m { (default : Meta) with name := "pay" } := by
  constructor
  · obtain ⟨m, hm, hpool, ho, hr⟩ := exists_reaches_of_checkedRun (step "office") (fun _ _ => True)
      (fun m => m.listenerPool = ["x", "x", "y"] ∧ m.Open (transSubPrefix ++ "pay") ∧
        (transLoop m.listeners (transSubPrefix ++ "pay") m.listenerPool [] "").2.isNone)
      empty
      [.request (.receiverStart "x"), .receiverRemove "x" 1, .request (.receiverStart "x"),
        .request (.register ⟨Tarantula.transMail, "y", "", "pay", "office", false⟩)] (by decide +kernel)
    exact ⟨m, _, hm, hpool, ho, missed_of_open { (default : Meta) with name := "pay" } ho hr⟩
  · obtain ⟨m, hm, hpool, ho, hr, hsame⟩ := exists_reaches_of_checkedRun (step "office")
      (fun _ _ => True)
      (fun m => m.listenerPool = ["", "y"] ∧ m.Open (transSubPrefix ++ "pay") ∧
        (transLoop m.listeners (transSubPrefix ++ "pay") m.listenerPool [] "").2.isNone ∧
        (transLoop m.listeners (transSubPrefix ++ "pay") m.listenerPool [] "").1 =
          m.listenerPool)
      empty
      [.request (.receiverStart ""),
        .request (.register ⟨Tarantula.transMail, "y", "", "pay", "office", false⟩)] (by decide +kernel)
    have h := missed_of_open { (default : Meta) with name := "pay" } ho hr
    rw [hsame] at h
    exact ⟨m, hm, hpool, ho, h⟩

end Dispatch

end MailRoom

end Tarantula
