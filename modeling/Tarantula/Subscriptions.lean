import Mathlib.Data.List.Sort
import Tarantula.ExtMap
import Tarantula.MemberHashRing

/-! The table from which a postoffice routes mails: for each topic and the endpoint of a
postoffice, the workers there that subscribe to the topic, and a pool with the connection to
that postoffice. -/

namespace Tarantula

def topicMail : UInt32 := 0
def transMail : UInt32 := 1

def transSubPrefix : String := "_t_"

structure TopicKey where
  topic : String
  endpoint : String
  deriving DecidableEq, Repr

namespace TopicKey

instance : Ord TopicKey := ⟨compareLex (compareOn TopicKey.topic) (compareOn TopicKey.endpoint)⟩

instance : Std.TransOrd TopicKey :=
  inferInstanceAs (Std.TransCmp (compareLex (compareOn TopicKey.topic) (compareOn TopicKey.endpoint)))

instance : Std.LawfulEqOrd TopicKey where
  eq_of_compare {a b} h := by
    rw [show compare a b = (compare a.topic b.topic).then (compare a.endpoint b.endpoint) from rfl,
      Ordering.then_eq_eq, Std.compare_eq_iff_eq, Std.compare_eq_iff_eq] at h
    cases a
    cases b
    rw [TopicKey.mk.injEq]
    exact h

end TopicKey

structure Subscription where
  type : UInt32
  nodeId : String
  tag : String
  topic : String
  endpoint : String
  deleting : Bool
  deriving DecidableEq, Repr

namespace Subscription

def key (s : Subscription) : String := s.nodeId ++ ":" ++ s.tag ++ ":" ++ s.topic

def topicKey (s : Subscription) : TopicKey := ⟨s.topic, s.endpoint⟩

end Subscription

/-- `live` says that the pool has a connection: `MAX_POOL_SIZE` is one, and only `Conn` makes
it. -/
structure RpcConnPool where
  target : String
  tag : String
  nodeId : String
  live : Bool
  deriving DecidableEq, Repr

structure SubscriptionRegistry where
  topicEnds : Std.ExtTreeMap TopicKey (Std.ExtTreeMap String Subscription)
  cPools : Std.ExtTreeMap TopicKey RpcConnPool
  roundIdx : Std.ExtTreeMap String Nat

/-- The order in which `range` goes over the entries of a map: any order. -/
structure RangeOrder where
  order : List Subscription → List Subscription
  perm : ∀ subs, (order subs).Perm subs

namespace SubscriptionRegistry

def empty : SubscriptionRegistry := ⟨∅, ∅, ∅⟩

def slot (s : SubscriptionRegistry) (k : TopicKey) (key : String) : Option Subscription :=
  ExtMap.slot s.topicEnds k key

/-- The pool has the names of the subscription that made the entry. -/
def add (s : SubscriptionRegistry) (sub : Subscription) : SubscriptionRegistry :=
  match s.topicEnds[sub.topicKey]? with
  | none =>
    { s with
      topicEnds := s.topicEnds.insert sub.topicKey
        ((∅ : Std.ExtTreeMap String Subscription).insert sub.key sub)
      cPools := s.cPools.insert sub.topicKey ⟨sub.endpoint, sub.tag, sub.nodeId, false⟩ }
  | some subs =>
    if sub.key ∈ subs then s
    else { s with topicEnds := s.topicEnds.insert sub.topicKey (subs.insert sub.key sub) }

/-- The registry without the subscription, and the pool that is released where this was the
last subscription of its entry. -/
def del (s : SubscriptionRegistry) (sub : Subscription) : SubscriptionRegistry × Option RpcConnPool :=
  match s.topicEnds[sub.topicKey]? with
  | none => (s, none)
  | some subs =>
    let subs := subs.erase sub.key
    if subs.isEmpty then
      ({ s with
         topicEnds := s.topicEnds.erase sub.topicKey
         cPools := s.cPools.erase sub.topicKey }, s.cPools[sub.topicKey]?)
    else ({ s with topicEnds := s.topicEnds.insert sub.topicKey subs }, none)

def delEach : List Subscription → SubscriptionRegistry → SubscriptionRegistry × List RpcConnPool
  | [], s => (s, [])
  | sub :: subs, s =>
    let (s, released) := s.del sub
    let (s, more) := delEach subs s
    (s, released.toList ++ more)

def subs (s : SubscriptionRegistry) : List Subscription := ExtMap.values s.topicEnds

/-- `lookup` with a function that deletes the subscriptions with `p`. -/
def delWhere (p : Subscription → Bool) (s : SubscriptionRegistry) :
    SubscriptionRegistry × List RpcConnPool :=
  delEach (s.subs.filter p) s

/-- For each endpoint of the topic the node of the first subscription with the tag. -/
def entries (range : RangeOrder) (s : SubscriptionRegistry) (name tag : String) :
    List (String × String) :=
  s.topicEnds.toList.filterMap fun (k, subMap) =>
    if k.topic ≠ name then none
    else ((range.order (subMap.toList.map (·.2))).find? fun sub => tag = "" ∨ sub.tag = tag).map
      fun sub => (k.endpoint, sub.nodeId)

def pick (range : RangeOrder) (s : SubscriptionRegistry) (name tag : String) :
    SubscriptionRegistry × Option Subscription :=
  let entries := (s.entries range name tag).insertionSort (fun e₁ e₂ => e₁.1 ≤ e₂.1)
  let key := name ++ "#" ++ tag
  let idx := s.roundIdx.getD key 0
  match entries[idx % entries.length]? with
  | none => (s, none)
  | some (ep, nodeId) =>
    ({ s with roundIdx := s.roundIdx.insert key (idx + 1) }, some ⟨0, nodeId, "", name, ep, false⟩)

def pickByNodeId (range : RangeOrder) (s : SubscriptionRegistry) (name nodeId : String) :
    Option Subscription :=
  ((range.order s.subs).find? fun sub => sub.topic = name ∧ sub.nodeId = nodeId).map
    fun sub => ⟨0, nodeId, "", name, sub.endpoint, false⟩

/-- `Conn` on the pool of an entry. -/
def conn (s : SubscriptionRegistry) (k : TopicKey) : SubscriptionRegistry :=
  { s with cPools := s.cPools.modify k ({ · with live := true }) }

/-- The entries stand under their own keys, and each has a pool. -/
structure Keyed (s : SubscriptionRegistry) : Prop where
  keys : ∀ k key sub, s.slot k key = some sub → sub.topicKey = k ∧ sub.key = key
  pools : ∀ k, k ∈ s.cPools ↔ k ∈ s.topicEnds

variable {s : SubscriptionRegistry} (sub : Subscription) (k : TopicKey) (key : String)

theorem slot_add : (s.add sub).slot k key =
    if sub.topicKey = k ∧ sub.key = key then some ((s.slot k key).getD sub) else s.slot k key := by
  unfold add slot
  split
  · next h =>
    rw [ExtMap.slot_insert]
    by_cases hk : sub.topicKey = k
    · subst hk
      rw [if_pos rfl, ExtMap.getElem?_insert, ExtMap.slot_of_missing h]
      by_cases hkey : sub.key = key <;> simp [hkey]
    · simp [hk]
  · next subs h =>
    split
    · next hmem =>
      split
      · next hk =>
        obtain ⟨rfl, rfl⟩ := hk
        obtain ⟨b, hb⟩ := ExtMap.getElem?_of_mem hmem
        rw [ExtMap.slot_of_getElem? h, hb]
        rfl
      · rfl
    · next hmem =>
      rw [Std.ExtTreeMap.mem_iff_isSome_getElem?, Option.not_isSome_iff_eq_none] at hmem
      rw [ExtMap.slot_insert]
      by_cases hk : sub.topicKey = k
      · subst hk
        rw [if_pos rfl, ExtMap.getElem?_insert, ExtMap.slot_of_getElem? h]
        by_cases hkey : sub.key = key
        · subst hkey
          simp [hmem]
        · simp [hkey]
      · simp [hk]

theorem slot_del : (s.del sub).1.slot k key =
    if sub.topicKey = k ∧ sub.key = key then none else s.slot k key := by
  unfold del slot
  split
  · next h =>
    split
    · next hk => rw [← hk.1, ExtMap.slot_of_missing h]
    · rfl
  · next subs h =>
    dsimp only
    have he : ∀ i, sub.topicKey = k → (subs.erase sub.key)[i]? =
        if sub.key = i then none else ExtMap.slot s.topicEnds k i := by
      intro i hk
      rw [ExtMap.getElem?_erase, ← hk, ExtMap.slot_of_getElem? h]
    split
    · next hemp =>
      rw [ExtMap.slot_erase]
      by_cases hk : sub.topicKey = k
      · have hnone := he key hk
        rw [Std.ExtTreeMap.isEmpty_iff.mp hemp, Std.ExtTreeMap.getElem?_empty] at hnone
        by_cases hkey : sub.key = key
        · simp [hk, hkey]
        · simp [hk, hkey] at hnone ⊢
          exact hnone
      · simp [hk]
    · rw [ExtMap.slot_insert]
      by_cases hk : sub.topicKey = k
      · rw [if_pos hk, he key hk]
        simp [hk]
      · simp [hk]

theorem del_del : ((s.del sub).1.del sub).2 = none := by
  unfold del
  cases h : s.topicEnds[sub.topicKey]? with
  | none =>
    dsimp only
    rw [h]
  | some subs =>
    dsimp only
    by_cases hemp : (subs.erase sub.key).isEmpty = true
    · rw [if_pos hemp]
      dsimp only
      rw [ExtMap.getElem?_erase, if_pos rfl]
    · have htwice : (subs.erase sub.key).erase sub.key = subs.erase sub.key := by
        apply Std.ExtTreeMap.ext_getElem?
        intro a
        rw [ExtMap.getElem?_erase, ExtMap.getElem?_erase]
        split <;> rfl
      rw [if_neg hemp]
      dsimp only
      rw [ExtMap.getElem?_insert, if_pos rfl]
      dsimp only
      rw [htwice, if_neg hemp]

theorem del_congr {sub sub' : Subscription} (hk : sub.topicKey = sub'.topicKey) (hkey : sub.key = sub'.key) :
    s.del sub = s.del sub' := by
  unfold del
  rw [hk, hkey]

theorem slot_delEach (subs : List Subscription) (s : SubscriptionRegistry) :
    (delEach subs s).1.slot k key =
      if ∃ b ∈ subs, b.topicKey = k ∧ b.key = key then none else s.slot k key := by
  induction subs generalizing s with
  | nil => simp [delEach]
  | cons b subs ih =>
    rw [delEach, ih, slot_del]
    by_cases hb : b.topicKey = k ∧ b.key = key
    · simp [hb]
    · simp [hb]

theorem mem_subs (h : s.Keyed) : sub ∈ s.subs ↔ s.slot sub.topicKey sub.key = some sub := by
  rw [subs, ExtMap.mem_values]
  constructor
  · rintro ⟨k, key, hs⟩
    obtain ⟨rfl, rfl⟩ := h.keys k key sub hs
    exact hs
  · exact fun hs => ⟨_, _, hs⟩

theorem slot_delWhere (h : s.Keyed) (p : Subscription → Bool) :
    (s.delWhere p).1.slot k key = (s.slot k key).filter (!p ·) := by
  rw [delWhere, slot_delEach]
  cases hs : s.slot k key with
  | none => simp
  | some b =>
    obtain ⟨rfl, rfl⟩ := h.keys k key b hs
    have hiff : (∃ b' ∈ s.subs.filter p, b'.topicKey = b.topicKey ∧ b'.key = b.key) ↔ p b = true := by
      constructor
      · rintro ⟨b', hb', hk, hkey⟩
        obtain ⟨hmem, hp⟩ := List.mem_filter.mp hb'
        rw [mem_subs b' h, hk, hkey, hs, Option.some.injEq] at hmem
        exact hmem ▸ hp
      · intro hp
        exact ⟨b, List.mem_filter.mpr ⟨(mem_subs b h).mpr hs, hp⟩, rfl, rfl⟩
    by_cases hp : p b = true
    · rw [if_pos (hiff.mpr hp), Option.filter, if_neg (by simpa using hp)]
    · rw [if_neg (fun hex => hp (hiff.mp hex)), Option.filter, if_pos (by simpa using hp)]

theorem Keyed.add (h : s.Keyed) : (s.add sub).Keyed where
  keys k key b hb := by
    rw [slot_add] at hb
    split at hb
    · next hk =>
      cases hs : s.slot k key with
      | none =>
        rw [hs] at hb
        cases hb
        exact hk
      | some b' =>
        rw [hs] at hb
        cases hb
        exact h.keys k key b' hs
    · exact h.keys k key b hb
  pools k := by
    have hp := h.pools k
    unfold SubscriptionRegistry.add
    split
    · simp [hp]
    · next subs hsubs =>
      split
      · exact hp
      · rw [hp, ExtMap.mem_insert_of_getElem? hsubs]

theorem Keyed.del (h : s.Keyed) : (s.del sub).1.Keyed where
  keys k key b hb := by
    rw [slot_del] at hb
    split at hb
    · cases hb
    · exact h.keys k key b hb
  pools k := by
    have hp := h.pools k
    unfold SubscriptionRegistry.del
    split
    · exact hp
    · next subs hsubs =>
      dsimp only
      split
      · simp [hp]
      · rw [hp, ExtMap.mem_insert_of_getElem? hsubs]

theorem Keyed.delEach (subs : List Subscription) {s : SubscriptionRegistry} (h : s.Keyed) :
    (SubscriptionRegistry.delEach subs s).1.Keyed := by
  induction subs generalizing s with
  | nil => exact h
  | cons b subs ih => exact ih (h.del b)

theorem Keyed.pick (range : RangeOrder) (name tag : String) (h : s.Keyed) :
    (s.pick range name tag).1.Keyed := by
  unfold SubscriptionRegistry.pick
  dsimp only
  split
  · exact h
  · exact ⟨h.keys, h.pools⟩

theorem Keyed.conn (h : s.Keyed) : (s.conn k).Keyed where
  keys := h.keys
  pools a := Std.ExtTreeMap.mem_modify.trans (h.pools a)

theorem Keyed.empty : empty.Keyed where
  keys k key b hb := by simp [slot, ExtMap.slot, SubscriptionRegistry.empty] at hb
  pools k := by simp [SubscriptionRegistry.empty]

end SubscriptionRegistry

end Tarantula
