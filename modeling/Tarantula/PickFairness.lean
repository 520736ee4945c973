import Mathlib.Data.List.Dedup
import Tarantula.RoundRobin
import Tarantula.Separator
import Tarantula.Subscriptions

/-! The assignment of tasks is a round robin over the endpoints that have a subscriber for the name
and the tag, whichever order the maps are read in. -/

namespace Tarantula

abbrev Subscribers := Std.ExtTreeMap String Subscription

/-- What `pick` is asked for. The empty tag stands for any. -/
def Subscription.Matches (name tag : String) (sub : Subscription) : Prop :=
  sub.topic = name ∧ (tag = "" ∨ sub.tag = tag)

instance (name tag : String) (sub : Subscription) : Decidable (sub.Matches name tag) :=
  inferInstanceAs (Decidable (_ ∧ _))

inductive PickCall
  | pick (range : RangeOrder) (name tag : String)
  | pickByNodeId (range : RangeOrder) (name nodeId : String)

namespace PickCall

def asked : PickCall → Option (String × String)
  | pick _ name tag => some (name, tag)
  | pickByNodeId .. => none

end PickCall

namespace SubscriptionRegistry

def endpoints (s : SubscriptionRegistry) (name tag : String) : List String :=
  ((s.subs.filter (·.Matches name tag)).map (·.endpoint)).dedup

def call (s : SubscriptionRegistry) : PickCall → SubscriptionRegistry × Option Subscription
  | .pick range name tag => s.pick range name tag
  | .pickByNodeId range name nodeId => (s, s.pickByNodeId range name nodeId)

/-- What the calls for a name and a tag return in a sequence of calls. -/
def picked (name tag : String) : List PickCall → SubscriptionRegistry → List (Option Subscription)
  | [], _ => []
  | c :: calls, s =>
    if c.asked = some (name, tag) then (s.call c).2 :: picked name tag calls (s.call c).1
    else picked name tag calls (s.call c).1

def entryOf (range : RangeOrder) (name tag : String) (e : TopicKey × Subscribers) :
    Option (String × String) :=
  if e.1.topic ≠ name then none
  else ((range.order (e.2.toList.map (·.2))).find? fun sub => tag = "" ∨ sub.tag = tag).map
    fun sub => (e.1.endpoint, sub.nodeId)

theorem entries_eq (range : RangeOrder) (s : SubscriptionRegistry) (name tag : String) :
    s.entries range name tag = s.topicEnds.toList.filterMap (entryOf range name tag) := rfl

section Entries

variable {range : RangeOrder} {s : SubscriptionRegistry} {name tag : String}

theorem entryOf_endpoint {e : TopicKey × Subscribers} {x : String × String}
    (h : entryOf range name tag e = some x) : e.1 = ⟨name, x.1⟩ := by
  unfold entryOf at h
  split at h
  · cases h
  · next hname =>
    obtain ⟨sub, -, rfl⟩ := Option.map_eq_some_iff.mp h
    rw [← not_not.mp hname]

theorem pairwise_entries {ends : List (TopicKey × Subscribers)} (h : (ends.map (·.1)).Nodup) :
    ((ends.filterMap (entryOf range name tag)).map (·.1)).Nodup := by
  induction ends with
  | nil => exact List.nodup_nil
  | cons e ends ih =>
    obtain ⟨hnot, hrest⟩ := List.nodup_cons.mp h
    cases he : entryOf range name tag e with
    | none =>
      rw [List.filterMap_cons_none he]
      exact ih hrest
    | some x =>
      rw [List.filterMap_cons_some he, List.map_cons, List.nodup_cons]
      refine ⟨fun hx => hnot ?_, ih hrest⟩
      obtain ⟨y, hy, hyx⟩ := List.mem_map.mp hx
      obtain ⟨e', he', hy'⟩ := List.mem_filterMap.mp hy
      have hkey : e.1 = e'.1 := by rw [entryOf_endpoint he, entryOf_endpoint hy', hyx]
      exact List.mem_map.mpr ⟨e', he', hkey.symm⟩

theorem nodup_entries : ((s.entries range name tag).map (·.1)).Nodup := by
  rw [entries_eq]
  apply pairwise_entries
  rw [Std.ExtTreeMap.map_fst_toList_eq_keys]
  exact Std.ExtTreeMap.nodup_keys

theorem mem_entries (h : s.Keyed) {x : String × String} (hx : x ∈ s.entries range name tag) :
    ∃ b ∈ s.subs, b.Matches name tag ∧ b.endpoint = x.1 ∧ b.nodeId = x.2 := by
  rw [entries_eq] at hx
  obtain ⟨⟨k, subMap⟩, hk, hx⟩ := List.mem_filterMap.mp hx
  have hkey : k = ⟨name, x.1⟩ := entryOf_endpoint hx
  unfold entryOf at hx
  split at hx
  · cases hx
  · obtain ⟨b, hb, rfl⟩ := Option.map_eq_some_iff.mp hx
    have htag : tag = "" ∨ b.tag = tag := by simpa using List.find?_some hb
    have hmem := (range.perm _).mem_iff.mp (List.mem_of_find?_eq_some hb)
    obtain ⟨⟨i, b'⟩, hi, rfl⟩ := List.mem_map.mp hmem
    rw [Std.ExtTreeMap.mem_toList_iff_getElem?_eq_some] at hk hi
    have hslot : s.slot k i = some b' := (ExtMap.slot_of_getElem? hk i).trans hi
    have hown := (h.keys k i b' hslot).1
    rw [hkey, Subscription.topicKey, TopicKey.mk.injEq] at hown
    exact ⟨b', ExtMap.mem_values.mpr ⟨k, i, hslot⟩, ⟨hown.1, htag⟩, hown.2, rfl⟩

theorem exists_entry (h : s.Keyed) {b : Subscription} (hb : b ∈ s.subs) (hm : b.Matches name tag) :
    b.endpoint ∈ (s.entries range name tag).map (·.1) := by
  rw [mem_subs b h] at hb
  obtain ⟨subMap, hsub, hin⟩ := Option.bind_eq_some_iff.mp hb
  have hmem : b ∈ range.order (subMap.toList.map (·.2)) := by
    rw [(range.perm _).mem_iff]
    exact List.mem_map.mpr ⟨(b.key, b), Std.ExtTreeMap.mem_toList_iff_getElem?_eq_some.mpr hin, rfl⟩
  have hfind : ((range.order (subMap.toList.map (·.2))).find? fun sub => tag = "" ∨
    sub.tag = tag).isSome := by
    rw [List.find?_isSome]
    exact ⟨b, hmem, by simpa using hm.2⟩
  obtain ⟨first, hfirst⟩ := Option.isSome_iff_exists.mp hfind
  have he : entryOf range name tag (b.topicKey, subMap) = some (b.endpoint, first.nodeId) := by
    have hname : b.topicKey.topic = name := hm.1
    unfold entryOf
    rw [if_neg (not_not.mpr hname), hfirst]
    rfl
  rw [entries_eq]
  have hk := Std.ExtTreeMap.mem_toList_iff_getElem?_eq_some.mpr hsub
  exact List.mem_map.mpr ⟨_, List.mem_filterMap.mpr ⟨_, hk, he⟩, rfl⟩

theorem entries_perm (h : s.Keyed) : ((s.entries range name tag).map (·.1)).Perm (s.endpoints name tag) := by
  apply (List.perm_ext_iff_of_nodup nodup_entries (List.nodup_dedup _)).mpr
  intro ep
  simp only [List.mem_dedup, List.mem_map, List.mem_filter, decide_eq_true_eq]
  constructor
  · rintro ⟨x, hx, rfl⟩
    obtain ⟨b, hb, hm, he, -⟩ := mem_entries h hx
    exact ⟨b, ⟨hb, hm⟩, he⟩
  · rintro ⟨b, ⟨hb, hm⟩, rfl⟩
    exact List.mem_map.mp (exists_entry h hb hm)

/-- The endpoints in the order in which `pick` goes through them. -/
def ring (s : SubscriptionRegistry) (name tag : String) : List String :=
  (s.endpoints name tag).insertionSort (· ≤ ·)

theorem sorted_entries (h : s.Keyed) (range : RangeOrder) (name tag : String) :
    ((s.entries range name tag).insertionSort fun e₁ e₂ => e₁.1 ≤ e₂.1).map (·.1) = s.ring name tag := by
  rw [List.map_insertionSort (fun e₁ e₂ : String × String => e₁.1 ≤ e₂.1) (· ≤ ·) (·.1) _
    fun _ _ _ _ => Iff.rfl]
  apply List.Perm.eq_of_pairwise' (List.pairwise_insertionSort (· ≤ ·) _)
    (List.pairwise_insertionSort (· ≤ ·) _)
  exact (List.perm_insertionSort _ _).trans ((entries_perm h).trans (List.perm_insertionSort _ _).symm)

/-- However the outer map is ranged over, and however the entries are sorted by their endpoints, they are
the same list. -/
theorem sorted_entries_unique {ends : List (TopicKey × Subscribers)} (hends : ends.Perm s.topicEnds.toList)
    {l : List (String × String)} (hl : l.Perm (ends.filterMap (entryOf range name tag)))
    (hsorted : l.Pairwise fun e₁ e₂ => e₁.1 ≤ e₂.1) :
    l = (s.entries range name tag).insertionSort fun e₁ e₂ => e₁.1 ≤ e₂.1 := by
  have hperm : l.Perm (s.entries range name tag) := hl.trans (hends.filterMap _)
  have hsort := List.perm_insertionSort (fun e₁ e₂ : String × String => e₁.1 ≤ e₂.1)
    (s.entries range name tag)
  have : Std.Total fun e₁ e₂ : String × String => e₁.1 ≤ e₂.1 := ⟨fun e₁ e₂ => String.le_total e₁.1 e₂.1⟩
  have : IsTrans (String × String) fun e₁ e₂ => e₁.1 ≤ e₂.1 := ⟨fun _ _ _ => String.le_trans⟩
  refine (hperm.trans hsort.symm).eq_of_pairwise (fun a b ha hb hab hba => ?_) hsorted
    (List.pairwise_insertionSort _ _)
  have hfst : a.1 = b.1 := String.le_antisymm hab hba
  exact List.inj_on_of_nodup_map nodup_entries (hperm.mem_iff.mp ha) (hsort.mem_iff.mp hb) hfst

end Entries

section Pick

variable {s : SubscriptionRegistry} {name tag : String}

theorem ring_perm : (s.ring name tag).Perm (s.endpoints name tag) := List.perm_insertionSort _ _

theorem endpoint_pick (h : s.Keyed) (range : RangeOrder) (name tag : String) :
    (s.pick range name tag).2.map (·.endpoint) =
      (s.ring name tag)[s.roundIdx.getD (name ++ "#" ++ tag) 0 % (s.ring name tag).length]? := by
  rw [← sorted_entries h range, List.getElem?_map, List.length_map]
  unfold pick
  dsimp only
  split
  · next hnone =>
    rw [hnone]
    rfl
  · next ep nodeId hsome =>
    rw [hsome]
    rfl

theorem pick_eq_none_iff (h : s.Keyed) (range : RangeOrder) :
    (s.pick range name tag).2 = none ↔ s.endpoints name tag = [] := by
  have hend := endpoint_pick h range name tag
  rw [← Option.map_eq_none_iff, hend, List.getElem?_eq_none_iff, (ring_perm (s := s)).length_eq]
  constructor
  · intro hle
    by_contra hne
    have hlt := Nat.mod_lt (s.roundIdx.getD (name ++ "#" ++ tag) 0) (List.length_pos_of_ne_nil hne)
    omega
  · intro hnil
    simp [hnil]

theorem pick_cases (range : RangeOrder) (s : SubscriptionRegistry) (name tag : String) :
    s.pick range name tag = (s, none) ∨ ∃ x ∈ s.entries range name tag,
      s.pick range name tag =
        ({ s with
            roundIdx := s.roundIdx.insert (name ++ "#" ++ tag)
              (s.roundIdx.getD (name ++ "#" ++ tag) 0 + 1) },
          some ⟨0, x.2, "", name, x.1, false⟩) := by
  unfold pick
  dsimp only
  split
  · exact .inl rfl
  · next ep nodeId hsome =>
    have hx := (List.perm_insertionSort _ _).mem_iff.mp (List.mem_of_getElem? hsome)
    exact .inr ⟨(ep, nodeId), hx, rfl⟩

theorem topicEnds_call (c : PickCall) (s : SubscriptionRegistry) :
    (s.call c).1.topicEnds = s.topicEnds ∧ (s.call c).1.cPools = s.cPools := by
  cases c with
  | pick range name tag =>
    rcases pick_cases range s name tag with hp | ⟨x, -, hp⟩ <;> rw [call, hp] <;> exact ⟨rfl, rfl⟩
  | pickByNodeId => exact ⟨rfl, rfl⟩

theorem endpoints_call (c : PickCall) (s : SubscriptionRegistry) (name tag : String) :
    (s.call c).1.endpoints name tag = s.endpoints name tag := by
  unfold endpoints subs
  rw [(topicEnds_call c s).1]

theorem Keyed.call (h : s.Keyed) (c : PickCall) : (s.call c).1.Keyed := by
  cases c with
  | pick range name tag => exact h.pick range name tag
  | pickByNodeId => exact h

/-- `c` has the counters of the names without a `#` that are subscribed to. -/
def Counts (s : SubscriptionRegistry) (c : String × String → Nat) : Prop :=
  ∀ name tag, '#' ∉ name.toList → s.endpoints name tag ≠ [] →
    s.roundIdx.getD (name ++ "#" ++ tag) 0 = c (name, tag)

theorem Counts.endpoint_pick {c : String × String → Nat} (hc : s.Counts c) (h : s.Keyed) (range : RangeOrder)
    (hname : '#' ∉ name.toList) :
    (s.pick range name tag).2.map (·.endpoint) =
      (s.ring name tag)[c (name, tag) % (s.ring name tag).length]? := by
  rw [SubscriptionRegistry.endpoint_pick h]
  by_cases hends : s.endpoints name tag = []
  · simp [ring, hends]
  · rw [hc name tag hname hends]

theorem Counts.call {c : String × String → Nat} (hc : s.Counts c) (h : s.Keyed) {range : RangeOrder}
    (hname : '#' ∉ name.toList) :
    (s.call (.pick range name tag)).1.Counts (Function.update c (name, tag) (c (name, tag) + 1)) := by
  intro name' tag' hname' hends
  rw [endpoints_call] at hends
  have hcount := hc name' tag' hname' hends
  by_cases hsame : (name', tag') = (name, tag)
  · cases hsame
    have hsome := mt (pick_eq_none_iff h range).mp hends
    rcases pick_cases range s name tag with hp | ⟨x, -, hp⟩
    · rw [hp] at hsome
      exact absurd rfl hsome
    · rw [SubscriptionRegistry.call, hp, Function.update_self, ← hcount]
      simp
  · rw [Function.update_of_ne hsame, ← hcount]
    rcases pick_cases range s name tag with hp | ⟨x, -, hp⟩
    · rw [SubscriptionRegistry.call, hp]
    · have hkey : name ++ "#" ++ tag ≠ name' ++ "#" ++ tag' := fun heq => hsame <| by
        obtain ⟨rfl, rfl⟩ := separated_inj rfl hname hname' heq
        rfl
      rw [SubscriptionRegistry.call, hp]
      simp [Std.ExtTreeMap.getD_insert, hkey]

/-- The calls for a name and a tag are turns of the round robin, and the other calls do not matter. -/
theorem picked_eq {pool : String × String → List String} {c : String × String → Nat} {calls : List PickCall}
    {s : SubscriptionRegistry} (h : s.Keyed) (hpool : ∀ p, pool p = s.ring p.1 p.2) (hc : s.Counts c)
    (hcalls : ∀ call ∈ calls, ∀ p, call.asked = some p → '#' ∉ p.1.toList) :
    (picked name tag calls s).map (·.map (·.endpoint)) =
      RoundRobin.answersOf (name, tag) (RoundRobin.run pool (calls.filterMap (·.asked)) c) := by
  induction calls generalizing s c with
  | nil => rfl
  | cons call calls ih =>
    have hkeyed := h.call call
    have hring : ∀ p, pool p = (s.call call).1.ring p.1 p.2 := fun p => by
      rw [hpool p, ring, ring, endpoints_call]
    have hrest := fun call hcall => hcalls call (List.mem_cons_of_mem _ hcall)
    cases call with
    | pickByNodeId range name' nodeId => exact ih hkeyed hring hc hrest
    | pick range name' tag' =>
      have hname' : '#' ∉ name'.toList := hcalls _ List.mem_cons_self (name', tag') rfl
      have htail := ih hkeyed hring (hc.call h hname') hrest
      have hend : (s.pick range name' tag').2.map (·.endpoint) =
          (s.ring name' tag')[c (name', tag') % (s.ring name' tag').length]? :=
            hc.endpoint_pick h range hname'
      rw [← hpool (name', tag')] at hend
      have hasked : (PickCall.pick range name' tag').asked = some (name', tag') := rfl
      rw [picked, hasked, List.filterMap_cons_some hasked, RoundRobin.run, RoundRobin.answersOf_cons, ← htail,
        ← hend]
      by_cases hask : (name', tag') = (name, tag)
      · rw [if_pos hask, if_pos (congrArg some hask)]
        rfl
      · rw [if_neg hask, if_neg (fun ha => hask (Option.some.inj ha))]

end Pick

end SubscriptionRegistry

/-- From any counters on, as many calls for a name and a tag as there are endpoints with a matching
subscriber return each of them once, whatever is asked for in between. A call returns nothing only
where there is no such endpoint, and otherwise a node that has subscribed there. -/
theorem assignment_is_fair {s : SubscriptionRegistry} (h : s.Keyed) (name tag : String) :
    (∀ calls : List PickCall, (∀ call ∈ calls, ∀ p, call.asked = some p → '#' ∉ p.1.toList) →
      (calls.filterMap (·.asked)).countP (· = (name, tag)) = (s.endpoints name tag).length →
      ((SubscriptionRegistry.picked name tag calls s).map (·.map (·.endpoint))).Perm
        ((s.endpoints name tag).map some)) ∧
    ∀ range, ((s.pick range name tag).2 = none ↔ ¬ ∃ b ∈ s.subs, b.Matches name tag) ∧
      ∀ sub, (s.pick range name tag).2 = some sub →
        ∃ b ∈ s.subs, b.Matches name tag ∧ b.endpoint = sub.endpoint ∧ b.nodeId = sub.nodeId := by
  refine ⟨fun calls hcalls hcount => ?_, fun range => ⟨?_, fun sub hsub => ?_⟩⟩
  · rw [SubscriptionRegistry.picked_eq h (fun _ => rfl)
      (c := fun p => s.roundIdx.getD (p.1 ++ "#" ++ p.2) 0) (fun _ _ _ _ => rfl) hcalls,
      RoundRobin.answersOf_run, hcount, ← (SubscriptionRegistry.ring_perm (s := s)).length_eq]
    exact (RoundRobin.turns_perm _ _).trans (SubscriptionRegistry.ring_perm.map some)
  · rw [SubscriptionRegistry.pick_eq_none_iff h, SubscriptionRegistry.endpoints]
    simp [List.dedup_eq_nil, List.filter_eq_nil_iff]
  · rcases SubscriptionRegistry.pick_cases range s name tag with hp | ⟨x, hx, hp⟩
    · rw [hp] at hsub
      cases hsub
    · rw [hp] at hsub
      cases hsub
      exact SubscriptionRegistry.mem_entries h hx

section Sample

theorem keyOrder_perm (subs : List Subscription) : (id subs).Perm subs := List.Perm.refl subs

def keyOrder : RangeOrder := ⟨id, keyOrder_perm⟩

def sampleRegistry : SubscriptionRegistry :=
  ((SubscriptionRegistry.empty.add ⟨transMail, "a", "dev", "_t_build", "office1", false⟩).add
    ⟨transMail, "b", "dev", "_t_build", "office2", false⟩).add ⟨transMail, "b", "dev", "_t_check",
      "office2", false⟩

theorem sampleRegistry_keyed : sampleRegistry.Keyed := ((SubscriptionRegistry.Keyed.empty.add _).add _).add _

def pickCalls : List PickCall :=
  [.pick keyOrder "_t_build" "dev", .pick keyOrder "_t_check" "", .pickByNodeId keyOrder "_t_build" "b",
    .pick keyOrder "_t_build" "dev"]

theorem pickCalls_plain : ∀ call ∈ pickCalls, ∀ p, call.asked = some p → '#' ∉ p.1.toList := by
  intro call hcall p hp
  simp only [pickCalls, List.mem_cons, List.not_mem_nil, or_false] at hcall
  rcases hcall with rfl | rfl | rfl | rfl
  · cases hp
    decide
  · cases hp
    decide
  · cases hp
  · cases hp
    decide

theorem assignment_is_fair_sample :
    sampleRegistry.endpoints "_t_build" "dev" = ["office1", "office2"] ∧
      ((SubscriptionRegistry.picked "_t_build" "dev" pickCalls sampleRegistry).map (·.map (·.endpoint))).Perm
        (["office1", "office2"].map some) := by
  have hends : sampleRegistry.endpoints "_t_build" "dev" = ["office1", "office2"] := by decide +kernel
  have hcount : (pickCalls.filterMap (·.asked)).countP (· = ("_t_build", "dev")) =
      (sampleRegistry.endpoints "_t_build" "dev").length := by decide +kernel
  have hfair := (assignment_is_fair sampleRegistry_keyed "_t_build" "dev").1 pickCalls pickCalls_plain hcount
  rw [hends] at hfair
  exact ⟨hends, hfair⟩

end Sample

end Tarantula
