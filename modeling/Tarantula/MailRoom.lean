import Mathlib.Data.List.Perm.Subperm
import Tarantula.Channel
import Tarantula.Protocol
import Tarantula.Subscriptions

/-! The mail room of a postoffice: the listeners, which are the channels to the workers that receive
their mails here, and the pool that TRANS_MAIL takes them from. RECEIVER_REMOVE deletes a listener
and leaves its node in the pool. -/

namespace Tarantula

/-- A mail with the part that the goroutine reads. -/
inductive Mail
  | topic (name : String)
  | trans (mt : Meta)
  deriving DecidableEq, Repr

/-- The topic by which the listeners are chosen. -/
def Mail.routed : Mail → String
  | .topic name => name
  | .trans mt => transSubPrefix ++ mt.name

/-- `stream` is the number of the RECEIVER_START that made the channels, and 0 where a
registration made them, so that no `Receive` reads from them. -/
structure ReceiverAsync where
  rev : Chan Mail
  q : Chan String
  subs : Std.ExtTreeMap String Subscription
  stream : Nat

namespace ReceiverAsync

def make (stream : Nat) (subs : Std.ExtTreeMap String Subscription) : ReceiverAsync :=
  ⟨.make nodeEventBufferSize, .make 2, subs, stream⟩

end ReceiverAsync

inductive OfficeRequest
  | nodeAdded
  | nodeRemoved (rpcEndpoint : String)
  | register (sub : Subscription)
  | removeSubs (nodeId : String)
  | receiverStart (name : String)
  | receiverEnd (name : String)
  | mail (mail : Mail)
  deriving DecidableEq, Repr

namespace Subscription

/-- The subscription of a transaction stands under the name with the prefix. -/
def routed (sub : Subscription) : Subscription :=
  if sub.type = transMail ∧ ¬ hasPrefix sub.topic transSubPrefix then
    { sub with topic := transSubPrefix ++ sub.topic }
  else sub

variable (sub : Subscription)

theorem routed_deleting : sub.routed.deleting = sub.deleting := by
  unfold routed
  split <;> rfl

theorem routed_nodeId : sub.routed.nodeId = sub.nodeId := by
  unfold routed
  split <;> rfl

theorem routed_endpoint : sub.routed.endpoint = sub.endpoint := by
  unfold routed
  split <;> rfl

theorem routed_tag : sub.routed.tag = sub.tag := by
  unfold routed
  split <;> rfl

end Subscription

structure MailRoom where
  listeners : Std.ExtTreeMap String ReceiverAsync
  listenerPool : List String
  streams : Nat

/-- `qChan` is the number of the RECEIVER_START that made the channel, which a `Receive` was
given; `received` is a `Receive` that takes a mail out of its channel. -/
inductive RoomEvent
  | request (req : OfficeRequest)
  | receiverRemove (name : String) (qChan : Nat)
  | received (name : String)

namespace MailRoom

def empty : MailRoom := ⟨∅, [], 0⟩

def listen (m : MailRoom) (name : String) (ch : ReceiverAsync) : MailRoom :=
  { m with
    listeners := m.listeners.insert name ch
    listenerPool := if name ∈ m.listeners then m.listenerPool else m.listenerPool ++ [name] }

def registerSubscription (rpcEndpoint : String) (m : MailRoom) (sub : Subscription) : MailRoom :=
  let sub := sub.routed
  if sub.deleting then
    if sub.endpoint = rpcEndpoint then
      match m.listeners[sub.nodeId]? with
      | none => m
      | some listener => m.listen sub.nodeId { listener with subs := listener.subs.erase sub.topic }
    else m
  else if sub.endpoint ≠ rpcEndpoint then m
  else
    let listener := m.listeners[sub.nodeId]?.getD (.make 0 ∅)
    m.listen sub.nodeId { listener with subs := listener.subs.insert sub.topic sub }

def subsOf (m : MailRoom) (name : String) : Std.ExtTreeMap String Subscription :=
  (m.listeners[name]?.map (·.subs)).getD ∅

/-- The new channels keep the subscriptions of the old ones. -/
def receiverStart (m : MailRoom) (name : String) : MailRoom :=
  { m with streams := m.streams + 1 }.listen name (.make (m.streams + 1) (m.subsOf name))

/-- `none` where the goroutine waits for room in the channel. -/
def receiverEnd (m : MailRoom) (name : String) : Option MailRoom :=
  match m.listeners[name]? with
  | none => some m
  | some rev =>
    match rev.q.send name with
    | .sent q => some (m.listen name { rev with q })
    | _ => none

def receiverRemove (m : MailRoom) (name : String) (qChan : Nat) : MailRoom :=
  match m.listeners[name]? with
  | none => m
  | some current =>
    if current.stream = qChan then { m with listeners := m.listeners.erase name } else m

/-- A mail for a full channel is dropped. -/
def post (m : MailRoom) (nk : String) (ch : ReceiverAsync) (mail : Mail) : MailRoom :=
  match ch.rev.send mail with
  | .sent rev => m.listen nk { ch with rev }
  | _ => m

def topicLoop (name : String) : List (String × ReceiverAsync) → MailRoom → MailRoom
  | [], m => m
  | (nk, ch) :: rest, m =>
    if name ∈ ch.subs then topicLoop name rest (m.post nk ch (.topic name)) else topicLoop name rest m

def topicMail (m : MailRoom) (name : String) : MailRoom := topicLoop name m.listeners.toList m

/-- The loop of TRANS_MAIL. The first list are the nodes it has not come to and `moved` those
that it has put to the tail of the pool, so that the pool is the two together. Where the first
list is empty the head of the pool is `lk`, or the pool is empty. -/
def transLoop (listeners : Std.ExtTreeMap String ReceiverAsync) (tn : String) :
    List String → List String → String → List String × Option (String × ReceiverAsync)
  | [], moved, _ => (moved, none)
  | nk :: rest, moved, lk =>
    if lk = nk then (nk :: rest ++ moved, none)
    else
      match listeners[nk]? with
      | none => transLoop listeners tn rest moved lk
      | some nc =>
        if tn ∈ nc.subs then (rest ++ moved ++ [nk], some (nk, nc))
        else transLoop listeners tn rest (moved ++ [nk]) (if lk = "" then nk else lk)

/-- The loop of TRANS_MAIL as it stands, for a number of turns. `none` where they do not
suffice. -/
def transFor (listeners : Std.ExtTreeMap String ReceiverAsync) (tn : String) :
    Nat → List String → String → Option (List String × Option (String × ReceiverAsync))
  | 0, _, _ => none
  | _ + 1, [], _ => some ([], none)
  | turns + 1, nk :: rest, lk =>
    if lk = nk then some (nk :: rest, none)
    else
      match listeners[nk]? with
      | none => transFor listeners tn turns rest lk
      | some nc =>
        if tn ∈ nc.subs then some (rest ++ [nk], some (nk, nc))
        else transFor listeners tn turns (rest ++ [nk]) (if lk = "" then nk else lk)

/-- The node goes to the tail of the pool also where its channel is full. -/
def transPost (m : MailRoom) (mt : Meta) (r : List String × Option (String × ReceiverAsync)) : MailRoom :=
  let m := { m with listenerPool := r.1 }
  match r.2 with
  | none => m
  | some (nk, nc) => m.post nk nc (.trans mt)

def transMail (m : MailRoom) (mt : Meta) : Option MailRoom :=
  (transFor m.listeners (transSubPrefix ++ mt.name) (m.listenerPool.length + 1) m.listenerPool "").map
    (m.transPost mt)

def serve (rpcEndpoint : String) (m : MailRoom) : OfficeRequest → Option MailRoom
  | .nodeAdded | .nodeRemoved _ | .removeSubs _ => some m
  | .register sub => some (m.registerSubscription rpcEndpoint sub)
  | .receiverStart name => some (m.receiverStart name)
  | .receiverEnd name => m.receiverEnd name
  | .mail (.topic name) => some (m.topicMail name)
  | .mail (.trans mt) => m.transMail mt

def received (m : MailRoom) (name : String) : Option MailRoom :=
  (m.listeners[name]?).bind fun ch => ch.rev.receive.map fun r => m.listen name { ch with rev := r.2 }

def step (rpcEndpoint : String) (m : MailRoom) : RoomEvent → Option MailRoom
  | .request req => m.serve rpcEndpoint req
  | .receiverRemove name qChan => some (m.receiverRemove name qChan)
  | .received name => m.received name

section Loop

variable {listeners : Std.ExtTreeMap String ReceiverAsync} {tn : String}

/-- The nodes that were put to the tail come round to the one that was put there first, which
is `lk`: a turn for each node of the pool and one more suffice. -/
theorem transFor_eq {turns : Nat} {rest moved : List String} {lk : String} (ht : rest.length < turns)
    (hlk : if lk = "" then moved = [] else moved.head? = some lk) :
    transFor listeners tn turns (rest ++ moved) lk = some (transLoop listeners tn rest moved lk) := by
  induction rest generalizing turns moved lk with
  | nil =>
    obtain ⟨turns, rfl⟩ : ∃ n, turns = n + 1 := ⟨turns - 1, by simp at ht; omega⟩
    cases moved with
    | nil => rfl
    | cons k moved =>
      by_cases he : lk = ""
      · simp [he] at hlk
      · obtain rfl : k = lk := by simpa [he] using hlk
        simp [transFor, transLoop]
  | cons nk rest ih =>
    rw [List.length_cons] at ht
    obtain ⟨turns, rfl⟩ : ∃ n, turns = n + 1 := ⟨turns - 1, by omega⟩
    rw [List.cons_append, transFor, transLoop]
    by_cases hstop : lk = nk
    · simp [hstop]
    · rw [if_neg hstop, if_neg hstop]
      cases hnc : listeners[nk]? with
      | none => exact ih (by omega) hlk
      | some nc =>
        by_cases hsub : tn ∈ nc.subs
        · simp only [hsub, if_true]
        · simp only [hsub, if_false]
          rw [List.append_assoc]
          refine ih (by omega) ?_
          by_cases he : lk = ""
          · -- the first node that is put to the tail
            have hne : nk ≠ "" := fun h => hstop (he.trans h.symm)
            have hm : moved = [] := by simpa [he] using hlk
            simp [he, hne, hm]
          · have hm : moved.head? = some lk := by simpa [he] using hlk
            simp [he, List.head?_append, hm]

theorem transFor_pool {turns : Nat} {pool : List String} (ht : pool.length < turns) :
    transFor listeners tn turns pool "" = some (transLoop listeners tn pool [] "") := by
  have h : transFor listeners tn turns (pool ++ []) "" = some (transLoop listeners tn pool [] "") :=
    transFor_eq ht (by simp)
  rwa [List.append_nil] at h

theorem transMail_eq (m : MailRoom) (mt : Meta) : m.transMail mt =
    some (m.transPost mt (transLoop m.listeners (transSubPrefix ++ mt.name) m.listenerPool [] "")) := by
  rw [transMail, transFor_pool (Nat.lt_succ_self _), Option.map_some]

/-- No node of the path is the one at which the loop stops. -/
def PassesFrom (listeners : Std.ExtTreeMap String ReceiverAsync) : String → List String → Prop
  | _, [] => True
  | lk, k :: path => lk ≠ k ∧ PassesFrom listeners (if k ∈ listeners ∧ lk = "" then k else lk) path

theorem transLoop_found {rest moved : List String} {lk n : String} {ch : ReceiverAsync}
    (h : (transLoop listeners tn rest moved lk).2 = some (n, ch)) :
    listeners[n]? = some ch ∧ tn ∈ ch.subs ∧ ∃ pre post, rest = pre ++ n :: post ∧
      (∀ k ∈ pre, ¬ ∃ ch, listeners[k]? = some ch ∧ tn ∈ ch.subs) ∧
      PassesFrom listeners lk (pre ++ [n]) := by
  induction rest generalizing moved lk with
  | nil => cases h
  | cons nk rest ih =>
    rw [transLoop] at h
    by_cases hstop : lk = nk
    · simp [hstop] at h
    · rw [if_neg hstop] at h
      cases hnc : listeners[nk]? with
      | none =>
        simp only [hnc] at h
        obtain ⟨hch, hsub, pre, post, rfl, hpre, hpass⟩ := ih h
        have hl : nk ∉ listeners := ExtMap.not_mem_of_getElem? hnc
        refine ⟨hch, hsub, nk :: pre, post, rfl, ?_, hstop, ?_⟩
        · simpa [hnc] using hpre
        · simpa [hl] using hpass
      | some nc =>
        have hl : nk ∈ listeners := ExtMap.mem_of_getElem? hnc
        simp only [hnc] at h
        by_cases hsub : tn ∈ nc.subs
        · rw [if_pos hsub] at h
          obtain ⟨rfl, rfl⟩ := Prod.mk.inj (Option.some.inj h)
          exact ⟨hnc, hsub, [], rest, rfl, by simp, hstop, trivial⟩
        · rw [if_neg hsub] at h
          obtain ⟨hch, hsub', pre, post, rfl, hpre, hpass⟩ := ih h
          refine ⟨hch, hsub', nk :: pre, post, rfl, ?_, hstop, ?_⟩
          · simpa [hnc, hsub] using hpre
          · simpa [hl] using hpass

theorem transLoop_subperm (rest moved : List String) (lk : String) :
    (transLoop listeners tn rest moved lk).1.Subperm (rest ++ moved) := by
  induction rest generalizing moved lk with
  | nil => exact .refl _
  | cons nk rest ih =>
    have hmove : (rest ++ moved ++ [nk]).Subperm (nk :: rest ++ moved) :=
      (List.perm_append_singleton nk _).subperm
    rw [transLoop]
    split
    · exact .refl _
    · split
      · exact (ih moved lk).trans (List.sublist_cons_self ..).subperm
      · split
        · exact hmove
        · refine (ih _ _).trans ?_
          rw [← List.append_assoc]
          exact hmove

theorem mem_transLoop {rest moved : List String} {lk n : String} (hn : n ∈ listeners)
    (h : n ∈ rest ++ moved) : n ∈ (transLoop listeners tn rest moved lk).1 := by
  induction rest generalizing moved lk with
  | nil => exact h
  | cons nk rest ih =>
    rw [transLoop]
    split
    · exact h
    · split
      · next hnc =>
        refine ih ?_
        rcases List.mem_cons.mp h with rfl | h
        · exact absurd hn (ExtMap.not_mem_of_getElem? hnc)
        · exact h
      · split
        · simpa [or_comm, or_assoc, or_left_comm] using h
        · refine ih ?_
          simpa [or_comm, or_assoc, or_left_comm] using h

end Loop

section Subs

variable {m m' : MailRoom} {name : String} {ch : ReceiverAsync}

theorem subsOf_listen (m : MailRoom) (name : String) (ch : ReceiverAsync) (n : String) :
    (m.listen name ch).subsOf n = if name = n then ch.subs else m.subsOf n := by
  unfold subsOf listen
  rw [ExtMap.getElem?_insert]
  split <;> rfl

theorem subsOf_of_getElem? (h : m.listeners[name]? = some ch) : m.subsOf name = ch.subs := by
  unfold subsOf
  rw [h]
  rfl

theorem subsOf_of_none (h : m.listeners[name]? = none) : m.subsOf name = ∅ := by
  unfold subsOf
  rw [h]
  rfl

theorem subsOf_relisten (h : ch.subs = m.subsOf name) (n : String) :
    (m.listen name ch).subsOf n = m.subsOf n := by
  rw [subsOf_listen]
  split
  · next hn => rw [h, hn]
  · rfl

theorem subsOf_post (h : ch.subs = m.subsOf name) (mail : Mail) (n : String) :
    (m.post name ch mail).subsOf n = m.subsOf n := by
  unfold post
  split
  · apply subsOf_relisten
    exact h
  · rfl

theorem subsOf_topicLoop {l : List (String × ReceiverAsync)}
    (h : ∀ nk ch, (nk, ch) ∈ l → ch.subs = m.subsOf nk) (name n : String) :
    (topicLoop name l m).subsOf n = m.subsOf n := by
  induction l generalizing m with
  | nil => rfl
  | cons x l ih =>
    obtain ⟨nk, ch⟩ := x
    have hrest := fun nk ch hx => h nk ch (List.mem_cons_of_mem _ hx)
    unfold topicLoop
    split
    · have hpost := subsOf_post (h nk ch List.mem_cons_self) (.topic name)
      rw [ih fun nk ch hx => (hrest nk ch hx).trans (hpost nk).symm, hpost]
    · exact ih hrest

theorem subsOf_topicMail (m : MailRoom) (name n : String) : (m.topicMail name).subsOf n = m.subsOf n := by
  apply subsOf_topicLoop
  intro nk ch hx
  rw [Std.ExtTreeMap.mem_toList_iff_getElem?_eq_some] at hx
  exact (subsOf_of_getElem? hx).symm

theorem subsOf_transPost (m : MailRoom) (mt : Meta) (tn n : String) :
    (m.transPost mt (transLoop m.listeners tn m.listenerPool [] "")).subsOf n = m.subsOf n := by
  unfold transPost
  dsimp only
  split
  · rfl
  · next nk nc h =>
    obtain ⟨hnc, -⟩ := transLoop_found h
    apply subsOf_post
    exact (subsOf_of_getElem? hnc).symm

theorem subsOf_receiverStart (m : MailRoom) (name n : String) :
    (m.receiverStart name).subsOf n = m.subsOf n :=
  subsOf_relisten (m := { m with streams := m.streams + 1 }) rfl n

theorem receiverEnd_cases (h : m.receiverEnd name = some m') :
    (m.listeners[name]? = none ∧ m' = m) ∨ ∃ ch, m.listeners[name]? = some ch ∧
      m' = m.listen name { ch with q := { ch.q with buf := ch.q.buf ++ [name] } } := by
  unfold receiverEnd at h
  cases hch : m.listeners[name]? with
  | none =>
    simp only [hch, Option.some.injEq] at h
    exact .inl ⟨rfl, h.symm⟩
  | some ch =>
    simp only [hch] at h
    cases hs : ch.q.send name with
    | panics => simp [hs] at h
    | blocks => simp [hs] at h
    | sent q =>
      simp only [hs, Option.some.injEq] at h
      rw [Chan.send_sent hs] at h
      exact .inr ⟨ch, rfl, h.symm⟩

theorem subsOf_receiverEnd (h : m.receiverEnd name = some m') (n : String) : m'.subsOf n = m.subsOf n := by
  rcases receiverEnd_cases h with ⟨-, rfl⟩ | ⟨ch, hch, rfl⟩
  · rfl
  · apply subsOf_relisten
    exact (subsOf_of_getElem? hch).symm

theorem subsOf_registered (own : String) (m : MailRoom) (sub : Subscription) (n : String) :
    (m.registerSubscription own sub).subsOf n =
      if sub.routed.endpoint = own ∧ sub.routed.nodeId = n then
        if sub.routed.deleting then (m.subsOf n).erase sub.routed.topic
        else (m.subsOf n).insert sub.routed.topic sub.routed
      else m.subsOf n := by
  unfold registerSubscription
  dsimp only
  by_cases ho : sub.routed.endpoint = own
  · simp only [ho, true_and, if_true, ne_eq, not_true_eq_false, if_false]
    split
    · split
      · next hnone =>
        have hempty := subsOf_of_none hnone
        split
        · next hn => rw [← hn, hempty, Std.ExtTreeMap.erase_empty]
        · rfl
      · next ch hch =>
        rw [subsOf_listen]
        split
        · next hn => rw [← hn, subsOf_of_getElem? hch]
        · rfl
    · rw [subsOf_listen]
      split
      · next hn =>
        subst hn
        unfold subsOf
        cases m.listeners[sub.routed.nodeId]? <;> rfl
      · rfl
  · simp only [ho, false_and, if_false, ne_eq, not_false_eq_true, if_true]
    split <;> rfl

end Subs

/-- The pool has the nodes with a listener, each once. -/
structure Pooled (m : MailRoom) : Prop where
  nodup : m.listenerPool.Nodup
  mem : ∀ n, n ∈ m.listenerPool ↔ n ∈ m.listeners

namespace Pooled

variable {m m' : MailRoom}

theorem empty : MailRoom.empty.Pooled := ⟨List.nodup_nil, by simp [MailRoom.empty]⟩

theorem listen (h : m.Pooled) (name : String) (ch : ReceiverAsync) : (m.listen name ch).Pooled where
  nodup := by
    unfold MailRoom.listen
    dsimp only
    split
    · exact h.nodup
    · next hn =>
      rw [← h.mem] at hn
      rw [← List.concat_eq_append]
      exact h.nodup.concat hn
  mem n := by
    unfold MailRoom.listen
    dsimp only
    rw [Std.ExtTreeMap.mem_insert, Std.compare_eq_iff_eq, ← h.mem n]
    split
    · next hn =>
      rw [← h.mem] at hn
      constructor
      · exact .inr
      · rintro (rfl | hn')
        · exact hn
        · exact hn'
    · simp only [List.mem_append, List.mem_singleton]
      rw [or_comm, eq_comm]

theorem post (h : m.Pooled) (nk : String) (ch : ReceiverAsync) (mail : Mail) :
    (m.post nk ch mail).Pooled := by
  unfold MailRoom.post
  split
  · exact h.listen nk _
  · exact h

theorem topicLoop (h : m.Pooled) (name : String) (l : List (String × ReceiverAsync)) :
    (topicLoop name l m).Pooled := by
  induction l generalizing m with
  | nil => exact h
  | cons x l ih =>
    obtain ⟨nk, ch⟩ := x
    unfold MailRoom.topicLoop
    split
    · exact ih (h.post nk ch _)
    · exact ih h

theorem topicMail (h : m.Pooled) (name : String) : (m.topicMail name).Pooled :=
  h.topicLoop name m.listeners.toList

theorem transPost (h : m.Pooled) (mt : Meta) (tn : String) :
    (m.transPost mt (transLoop m.listeners tn m.listenerPool [] "")).Pooled := by
  have hsub : (transLoop m.listeners tn m.listenerPool [] "").1.Subperm (m.listenerPool ++ []) :=
    transLoop_subperm ..
  rw [List.append_nil] at hsub
  have hpool : Pooled { m with listenerPool := (transLoop m.listeners tn m.listenerPool [] "").1 } := by
    obtain ⟨l, hperm, hl⟩ := hsub
    refine ⟨hperm.nodup_iff.mp (h.nodup.sublist hl), fun n => ⟨fun hn => ?_, fun hn => ?_⟩⟩
    · exact (h.mem n).mp (hl.subset (hperm.mem_iff.mpr hn))
    · exact mem_transLoop hn (by simpa using (h.mem n).mpr hn)
  unfold MailRoom.transPost
  dsimp only
  split
  · exact hpool
  · next nk nc _ => exact hpool.post nk nc (.trans mt)

theorem registerSubscription (h : m.Pooled) (own : String) (sub : Subscription) :
    (m.registerSubscription own sub).Pooled := by
  unfold MailRoom.registerSubscription
  dsimp only
  split
  · split
    · split
      · exact h
      · exact h.listen _ _
    · exact h
  · split
    · exact h
    · exact h.listen _ _

theorem receiverStart (h : m.Pooled) (name : String) : (m.receiverStart name).Pooled := by
  have hs : Pooled { m with streams := m.streams + 1 } := ⟨h.nodup, h.mem⟩
  exact hs.listen name _

theorem receiverEnd (h : m.Pooled) {name : String} (he : m.receiverEnd name = some m') : m'.Pooled := by
  rcases receiverEnd_cases he with ⟨-, rfl⟩ | ⟨ch, -, rfl⟩
  · exact h
  · exact h.listen name _

end Pooled

end MailRoom

end Tarantula
