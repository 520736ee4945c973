import Mathlib.Data.List.Induction
import Mathlib.Data.Set.Insert
import Tarantula.Separator
import Tarantula.Subscriptions

/-! The registry denotes a set: the endpoints, topics, nodes and tags that were added and not taken
away since. Each of its keys has a pool as long as it has a subscriber. -/

namespace Tarantula

structure Quad where
  endpoint : String
  topic : String
  nodeId : String
  tag : String
  deriving DecidableEq, Repr

namespace Subscription

def quad (sub : Subscription) : Quad := ⟨sub.endpoint, sub.topic, sub.nodeId, sub.tag⟩

/-- The names of nodes and tags that are configured have no colon. -/
def Plain (sub : Subscription) : Prop := ':' ∉ sub.nodeId.toList ∧ ':' ∉ sub.tag.toList

theorem quad_inj {a b : Subscription} (ha : a.Plain) (hb : b.Plain) (hk : a.topicKey = b.topicKey)
    (hkey : a.key = b.key) : a.quad = b.quad := by
  obtain ⟨htopic, hend⟩ := TopicKey.mk.injEq _ _ _ _ ▸ hk
  have hassoc : ∀ c : Subscription, c.key = c.nodeId ++ ":" ++ (c.tag ++ ":" ++ c.topic) := fun c => by
    rw [key, String.append_assoc, String.append_assoc, String.append_assoc, String.append_assoc,
      String.append_assoc]
  rw [hassoc, hassoc] at hkey
  obtain ⟨hnode, hrest⟩ := separated_inj rfl ha.1 hb.1 hkey
  obtain ⟨htag, -⟩ := separated_inj rfl ha.2 hb.2 hrest
  rw [quad, quad, htopic, hend, hnode, htag]

theorem key_of_quad {a b : Subscription} (h : a.quad = b.quad) : a.topicKey = b.topicKey ∧ a.key = b.key := by
  obtain ⟨hend, htopic, hnode, htag⟩ := Quad.mk.injEq .. ▸ h
  rw [topicKey, topicKey, key, key, hend, htopic, hnode, htag]
  exact ⟨rfl, rfl⟩

end Subscription

inductive RegistryStep
  | add (sub : Subscription)
  | del (sub : Subscription)
  | removeByNodeId (nodeId : String)
  | removeByEndpoint (endpoint : String)
  deriving DecidableEq, Repr

namespace RegistryStep

/-- The registry after the step, and the pools that it releases. -/
def apply (s : SubscriptionRegistry) : RegistryStep → SubscriptionRegistry × List RpcConnPool
  | add sub => (s.add sub, [])
  | del sub => ((s.del sub).1, (s.del sub).2.toList)
  | removeByNodeId nodeId => s.delWhere (·.nodeId = nodeId)
  | removeByEndpoint endpoint => s.delWhere (·.endpoint = endpoint)

def onSet (S : Set Quad) : RegistryStep → Set Quad
  | add sub => insert sub.quad S
  | del sub => S \ {sub.quad}
  | removeByNodeId nodeId => {q ∈ S | q.nodeId ≠ nodeId}
  | removeByEndpoint endpoint => {q ∈ S | q.endpoint ≠ endpoint}

/-- The subscription that is added or deleted has names without a colon. -/
def Plain : RegistryStep → Prop
  | add sub | del sub => sub.Plain
  | _ => True

def quad : RegistryStep → Option Quad
  | add sub | del sub => some sub.quad
  | _ => none

end RegistryStep

namespace SubscriptionRegistry

def run (steps : List RegistryStep) : SubscriptionRegistry :=
  steps.foldl (fun s st => (st.apply s).1) empty

/-- The quadruples that were added and not deleted since. -/
def added (steps : List RegistryStep) : Set Quad := steps.foldl (fun S st => st.onSet S) ∅

def denote (s : SubscriptionRegistry) : Set Quad := {q | ∃ b ∈ s.subs, b.quad = q}

/-- TASK_LIST where `prefixed`, and otherwise TOPIC_LIST. -/
def list (s : SubscriptionRegistry) (prefixed : Bool) : List Subscription :=
  s.topicEnds.toList.flatMap fun (k, subs) =>
    if hasPrefix k.topic transSubPrefix = prefixed then
      subs.toList.map fun (_, v) => ⟨0, v.nodeId, v.tag, v.topic, k.endpoint, false⟩
    else []

/-- The subscriptions that TOPIC_REGISTER answers with: only topic, endpoint and pool are set. -/
def topic (s : SubscriptionRegistry) (name : String) : List (Subscription × Option RpcConnPool) :=
  (s.topicEnds.keys.filter (·.topic = name)).map fun k =>
    (⟨0, "", "", k.topic, k.endpoint, false⟩, s.cPools[k]?)

structure Proper (s : SubscriptionRegistry) : Prop extends s.Keyed where
  nonempty : ∀ (k : TopicKey) (subs : Std.ExtTreeMap String Subscription),
    s.topicEnds[k]? = some subs → subs ≠ ∅
  plain : ∀ b ∈ s.subs, b.Plain

variable {s : SubscriptionRegistry} {sub b : Subscription}

theorem mem_subs_add (h : s.Keyed) :
    b ∈ (s.add sub).subs ↔ b ∈ s.subs ∨ b = sub ∧ s.slot sub.topicKey sub.key = none := by
  rw [mem_subs b (h.add sub), mem_subs b h, slot_add]
  by_cases hsame : sub.topicKey = b.topicKey ∧ sub.key = b.key
  · rw [if_pos hsame, ← hsame.1, ← hsame.2]
    cases s.slot sub.topicKey sub.key with
    | none => simp [eq_comm]
    | some x => simp
  · rw [if_neg hsame]
    have hne : b ≠ sub := by
      rintro rfl
      exact hsame ⟨rfl, rfl⟩
    simp [hne]

theorem mem_subs_del (h : s.Keyed) :
    b ∈ (s.del sub).1.subs ↔ b ∈ s.subs ∧ ¬ (sub.topicKey = b.topicKey ∧ sub.key = b.key) := by
  rw [mem_subs b (h.del sub), mem_subs b h, slot_del]
  by_cases hsame : sub.topicKey = b.topicKey ∧ sub.key = b.key <;> simp [hsame]

theorem mem_subs_delWhere (h : s.Keyed) (p : Subscription → Bool) :
    b ∈ (s.delWhere p).1.subs ↔ b ∈ s.subs ∧ p b = false := by
  have hkeyed : (s.delWhere p).1.Keyed := h.delEach _
  rw [mem_subs b hkeyed, mem_subs b h, slot_delWhere _ _ h]
  simp [Option.filter_eq_some_iff]

namespace Proper

theorem empty : SubscriptionRegistry.empty.Proper where
  toKeyed := .empty
  nonempty k subs h := by simp [SubscriptionRegistry.empty] at h
  plain b hb := by
    rw [mem_subs b .empty] at hb
    simp [slot, ExtMap.slot, SubscriptionRegistry.empty] at hb

theorem add (h : s.Proper) (hsub : sub.Plain) : (s.add sub).Proper where
  toKeyed := h.toKeyed.add sub
  nonempty k subs hk := by
    unfold SubscriptionRegistry.add at hk
    split at hk
    · rw [ExtMap.getElem?_insert] at hk
      split at hk
      · cases hk
        simp
      · exact h.nonempty k subs hk
    · split at hk
      · exact h.nonempty k subs hk
      · rw [ExtMap.getElem?_insert] at hk
        split at hk
        · cases hk
          simp
        · exact h.nonempty k subs hk
  plain b hb := by
    rcases (mem_subs_add h.toKeyed).mp hb with hb | ⟨rfl, -⟩
    · exact h.plain b hb
    · exact hsub

theorem del (h : s.Proper) (sub : Subscription) : (s.del sub).1.Proper where
  toKeyed := h.toKeyed.del sub
  nonempty k subs hk := by
    unfold SubscriptionRegistry.del at hk
    split at hk
    · exact h.nonempty k subs hk
    · dsimp only at hk
      split at hk
      · rw [ExtMap.getElem?_erase] at hk
        split at hk
        · cases hk
        · exact h.nonempty k subs hk
      · next hne =>
        rw [ExtMap.getElem?_insert] at hk
        split at hk
        · cases hk
          simpa using hne
        · exact h.nonempty k subs hk
  plain b hb := h.plain b ((mem_subs_del h.toKeyed).mp hb).1

theorem delEach (subs : List Subscription) {s : SubscriptionRegistry} (h : s.Proper) :
    (SubscriptionRegistry.delEach subs s).1.Proper := by
  induction subs generalizing s with
  | nil => exact h
  | cons b subs ih => exact ih (h.del b)

theorem apply (h : s.Proper) {st : RegistryStep} (hst : st.Plain) : (st.apply s).1.Proper := by
  cases st with
  | add sub => exact h.add hst
  | del sub => exact h.del sub
  | removeByNodeId nodeId => exact h.delEach _
  | removeByEndpoint endpoint => exact h.delEach _

theorem mem_denote_iff (h : s.Proper) (hsub : sub.Plain) :
    sub.quad ∈ s.denote ↔ s.slot sub.topicKey sub.key ≠ none := by
  constructor
  · rintro ⟨b, hb, hq⟩ hnone
    obtain ⟨hk, hkey⟩ := Subscription.key_of_quad hq
    rw [mem_subs b h.toKeyed, hk, hkey, hnone] at hb
    cases hb
  · intro hslot
    obtain ⟨b, hb⟩ := Option.ne_none_iff_exists'.mp hslot
    obtain ⟨hk, hkey⟩ := h.keys _ _ b hb
    have hmem : b ∈ s.subs := by rwa [mem_subs b h.toKeyed, hk, hkey]
    exact ⟨b, hmem, Subscription.quad_inj (h.plain b hmem) hsub hk hkey⟩

theorem denote_delWhere (h : s.Proper) {p : Subscription → Bool} {P : Quad → Prop}
    (hp : ∀ b, p b = false ↔ P b.quad) : (s.delWhere p).1.denote = {q ∈ s.denote | P q} := by
  ext q
  constructor
  · rintro ⟨b, hb, rfl⟩
    obtain ⟨hb, hpb⟩ := (mem_subs_delWhere h.toKeyed p).mp hb
    exact ⟨⟨b, hb, rfl⟩, (hp b).mp hpb⟩
  · rintro ⟨⟨b, hb, rfl⟩, hq⟩
    exact ⟨b, (mem_subs_delWhere h.toKeyed p).mpr ⟨hb, (hp b).mpr hq⟩, rfl⟩

theorem denote_apply (h : s.Proper) {st : RegistryStep} (hst : st.Plain) :
    (st.apply s).1.denote = st.onSet s.denote := by
  cases st with
  | add sub =>
    ext q
    constructor
    · rintro ⟨b, hb, rfl⟩
      rcases (mem_subs_add h.toKeyed).mp hb with hb | ⟨rfl, -⟩
      · exact .inr ⟨b, hb, rfl⟩
      · exact .inl rfl
    · rintro (rfl | ⟨b, hb, rfl⟩)
      · refine ((h.add hst).mem_denote_iff hst).mpr ?_
        rw [slot_add, if_pos ⟨rfl, rfl⟩]
        exact Option.some_ne_none _
      · exact ⟨b, (mem_subs_add h.toKeyed).mpr (.inl hb), rfl⟩
  | del sub =>
    ext q
    constructor
    · rintro ⟨b, hb, rfl⟩
      obtain ⟨hb, hne⟩ := (mem_subs_del h.toKeyed).mp hb
      exact ⟨⟨b, hb, rfl⟩, fun hq => hne (Subscription.key_of_quad hq.symm)⟩
    · rintro ⟨⟨b, hb, rfl⟩, hne⟩
      refine ⟨b, (mem_subs_del h.toKeyed).mpr ⟨hb, fun hsame => hne ?_⟩, rfl⟩
      exact (Subscription.quad_inj hst (h.plain b hb) hsame.1 hsame.2).symm
  | removeByNodeId nodeId => exact h.denote_delWhere fun b => by simp [Subscription.quad]
  | removeByEndpoint endpoint => exact h.denote_delWhere fun b => by simp [Subscription.quad]

/-- The registry of a run is proper and denotes what was added and not deleted since. -/
theorem run {steps : List RegistryStep} (hsteps : ∀ st ∈ steps, st.Plain) :
    (SubscriptionRegistry.run steps).Proper ∧ (SubscriptionRegistry.run steps).denote = added steps := by
  induction steps using List.reverseRecOn with
  | nil =>
    refine ⟨.empty, ?_⟩
    ext q
    simp [SubscriptionRegistry.run, denote, added, subs, ExtMap.values, SubscriptionRegistry.empty]
  | append_singleton steps st ih =>
    have hst := hsteps st (by simp)
    obtain ⟨hproper, hdenote⟩ := ih fun st' hst' => hsteps st' (by simp [hst'])
    simp only [SubscriptionRegistry.run, added, List.foldl_append, List.foldl_cons, List.foldl_nil]
      at hproper hdenote ⊢
    exact ⟨hproper.apply hst, by rw [hproper.denote_apply hst, hdenote]⟩

section Laws

theorem add_of_mem (h : s.Proper) (hsub : sub.Plain) (hmem : sub.quad ∈ s.denote) : s.add sub = s := by
  obtain ⟨b, hb⟩ := Option.ne_none_iff_exists'.mp ((h.mem_denote_iff hsub).mp hmem)
  obtain ⟨subs, hsubs, hin⟩ := Option.bind_eq_some_iff.mp hb
  unfold SubscriptionRegistry.add
  rw [hsubs]
  exact if_pos (ExtMap.mem_of_getElem? hin)

theorem del_of_not_mem (h : s.Proper) (hsub : sub.Plain) (hmem : sub.quad ∉ s.denote) :
    s.del sub = (s, none) := by
  have hslot := not_not.mp (mt (h.mem_denote_iff hsub).mpr hmem)
  unfold SubscriptionRegistry.del
  cases hsubs : s.topicEnds[sub.topicKey]? with
  | none => rfl
  | some subs =>
    have hmissing : subs[sub.key]? = none := (ExtMap.slot_of_getElem? hsubs sub.key).symm.trans hslot
    have herase : subs.erase sub.key = subs := by
      apply Std.ExtTreeMap.ext_getElem?
      intro i
      rw [ExtMap.getElem?_erase]
      split
      · next hi => rw [← hi, hmissing]
      · rfl
    have hne : ¬ subs.isEmpty = true := by simpa using h.nonempty _ subs hsubs
    dsimp only
    rw [herase, if_neg hne, ExtMap.insert_self hsubs]

theorem slot_apply {st : RegistryStep} {q : Quad} (hst : st.Plain) (hq : st.quad = some q) :
    ∃ sub : Subscription, sub.Plain ∧ sub.quad = q ∧ ∃ f : Option Subscription → Option Subscription,
      ∀ (s : SubscriptionRegistry) k key, (st.apply s).1.slot k key =
        if sub.topicKey = k ∧ sub.key = key then f (s.slot k key) else s.slot k key := by
  cases st with
  | add sub =>
    exact ⟨sub, hst, Option.some.inj hq, fun o => some (o.getD sub), fun s k key => slot_add sub k key⟩
  | del sub => exact ⟨sub, hst, Option.some.inj hq, fun _ => none, fun s k key => slot_del sub k key⟩
  | removeByNodeId => cases hq
  | removeByEndpoint => cases hq

/-- Steps on different quadruples commute. -/
theorem commute (h : s.Proper) {st st' : RegistryStep} (hst : st.Plain) (hst' : st'.Plain) {q q' : Quad}
    (hq : st.quad = some q) (hq' : st'.quad = some q') (hne : q ≠ q') :
    (st'.apply (st.apply s).1).1.topicEnds = (st.apply (st'.apply s).1).1.topicEnds := by
  obtain ⟨a, ha, rfl, f, hf⟩ := slot_apply hst hq
  obtain ⟨b, hb, rfl, g, hg⟩ := slot_apply hst' hq'
  refine ExtMap.ext_slot ((h.apply hst).apply hst').nonempty
    ((h.apply hst').apply hst).nonempty fun k key => ?_
  have hslots := (hg (st.apply s).1 k key).trans (by rw [hf])
  have hslots' := (hf (st'.apply s).1 k key).trans (by rw [hg])
  refine hslots.trans (.trans ?_ hslots'.symm)
  by_cases hka : a.topicKey = k ∧ a.key = key
  · have hkb : ¬ (b.topicKey = k ∧ b.key = key) := fun hkb =>
      hne (Subscription.quad_inj ha hb (hka.1.trans hkb.1.symm) (hka.2.trans hkb.2.symm))
    simp only [if_pos hka, if_neg hkb]
  · simp only [if_neg hka]

end Laws

section Reports

theorem mem_topicEnds_iff (h : s.Proper) {k : TopicKey} : k ∈ s.topicEnds ↔ ∃ b ∈ s.subs, b.topicKey = k := by
  constructor
  · intro hk
    obtain ⟨subs, hsubs⟩ := ExtMap.getElem?_of_mem hk
    obtain ⟨i, b, hb⟩ := ExtMap.exists_getElem? (h.nonempty k subs hsubs)
    have hslot : s.slot k i = some b := (ExtMap.slot_of_getElem? hsubs i).trans hb
    exact ⟨b, ExtMap.mem_values.mpr ⟨k, i, hslot⟩, (h.keys k i b hslot).1⟩
  · rintro ⟨b, hb, rfl⟩
    rw [mem_subs b h.toKeyed] at hb
    obtain ⟨subs, hsubs, -⟩ := Option.bind_eq_some_iff.mp hb
    exact ExtMap.mem_of_getElem? hsubs

theorem list_iff (h : s.Proper) (prefixed : Bool) (q : Quad) :
    (∃ v ∈ s.list prefixed, v.quad = q) ↔ q ∈ s.denote ∧ hasPrefix q.topic transSubPrefix = prefixed := by
  constructor
  · rintro ⟨v, hv, rfl⟩
    obtain ⟨⟨k, subs⟩, hk, hv⟩ := List.mem_flatMap.mp hv
    dsimp only at hv
    split at hv
    · next hp =>
      obtain ⟨⟨i, b⟩, hb, rfl⟩ := List.mem_map.mp hv
      rw [Std.ExtTreeMap.mem_toList_iff_getElem?_eq_some] at hk hb
      have hslot : s.slot k i = some b := (ExtMap.slot_of_getElem? hk i).trans hb
      have hown : b.topicKey = k := (h.keys k i b hslot).1
      subst hown
      exact ⟨⟨b, ExtMap.mem_values.mpr ⟨_, i, hslot⟩, rfl⟩, hp⟩
    · cases hv
  · rintro ⟨⟨b, hb, rfl⟩, hp⟩
    rw [mem_subs b h.toKeyed] at hb
    obtain ⟨subs, hsubs, hin⟩ := Option.bind_eq_some_iff.mp hb
    refine ⟨⟨0, b.nodeId, b.tag, b.topic, b.endpoint, false⟩,
      List.mem_flatMap.mpr ⟨(b.topicKey, subs), ?_, ?_⟩, rfl⟩
    · exact Std.ExtTreeMap.mem_toList_iff_getElem?_eq_some.mpr hsubs
    · have hp' : hasPrefix b.topicKey.topic transSubPrefix = prefixed := hp
      dsimp only
      rw [if_pos hp']
      exact List.mem_map.mpr ⟨(b.key, b), Std.ExtTreeMap.mem_toList_iff_getElem?_eq_some.mpr hin, rfl⟩

theorem topic_iff (h : s.Proper) (name endpoint : String) :
    (∃ pool, (⟨0, "", "", name, endpoint, false⟩, some pool) ∈ s.topic name) ↔
      ∃ q ∈ s.denote, q.topic = name ∧ q.endpoint = endpoint := by
  constructor
  · rintro ⟨pool, hp⟩
    obtain ⟨k, hk, hx⟩ := List.mem_map.mp hp
    obtain ⟨hk, -⟩ := List.mem_filter.mp hk
    obtain ⟨b, hb, rfl⟩ := h.mem_topicEnds_iff.mp (Std.ExtTreeMap.mem_keys.mp hk)
    cases (Prod.mk.inj hx).1
    exact ⟨b.quad, ⟨b, hb, rfl⟩, rfl, rfl⟩
  · rintro ⟨_, ⟨b, hb, rfl⟩, rfl, rfl⟩
    have hk : b.topicKey ∈ s.topicEnds := h.mem_topicEnds_iff.mpr ⟨b, hb, rfl⟩
    obtain ⟨pool, hpool⟩ := ExtMap.getElem?_of_mem ((h.pools _).mpr hk)
    refine ⟨pool, List.mem_map.mpr ⟨b.topicKey, List.mem_filter.mpr ⟨Std.ExtTreeMap.mem_keys.mpr hk, ?_⟩, ?_⟩⟩
    · simp [Subscription.topicKey, Subscription.quad]
    · rw [hpool]
      rfl

end Reports

end Proper

section Pools

def gone (s s' : SubscriptionRegistry) : List TopicKey := s.topicEnds.keys.filter (· ∉ s'.topicEnds)

/-- Pools go exactly with the last subscriber of their key, and the others stay. -/
structure Releases (s s' : SubscriptionRegistry) (released : List RpcConnPool) : Prop where
  kept : ∀ k ∈ s.topicEnds, k ∈ s'.topicEnds → s'.cPools[k]? = s.cPools[k]?
  released : released.Perm ((s.gone s').filterMap (s.cPools[·]?))

theorem mem_gone {s s' : SubscriptionRegistry} {k : TopicKey} :
    k ∈ s.gone s' ↔ k ∈ s.topicEnds ∧ k ∉ s'.topicEnds := by
  simp [gone]

theorem nodup_gone (s s' : SubscriptionRegistry) : (s.gone s').Nodup := Std.ExtTreeMap.nodup_keys.filter _

theorem gone_eq_nil {s s' : SubscriptionRegistry} (h : ∀ k ∈ s.topicEnds, k ∈ s'.topicEnds) :
    s.gone s' = [] := by
  rw [gone, List.filter_eq_nil_iff]
  intro k hk
  simpa using h k (Std.ExtTreeMap.mem_keys.mp hk)

theorem Releases.trans {s s' s'' : SubscriptionRegistry} {r r' : List RpcConnPool}
    (hsub : ∀ k, k ∈ s'.topicEnds → k ∈ s.topicEnds) (hsub' : ∀ k, k ∈ s''.topicEnds → k ∈ s'.topicEnds)
    (h : s.Releases s' r) (h' : s'.Releases s'' r') : s.Releases s'' (r ++ r') where
  kept k hk hk'' := (h'.kept k (hsub' k hk'') hk'').trans (h.kept k hk (hsub' k hk''))
  released := by
    have hgone : (s.gone s' ++ s'.gone s'').Perm (s.gone s'') := by
      apply (List.perm_ext_iff_of_nodup ?_ (nodup_gone s s'')).mpr
      · intro k
        simp only [List.mem_append, mem_gone]
        constructor
        · rintro (⟨hk, hk'⟩ | ⟨hk', hk''⟩)
          · exact ⟨hk, fun hk'' => hk' (hsub' k hk'')⟩
          · exact ⟨hsub k hk', hk''⟩
        · rintro ⟨hk, hk''⟩
          by_cases hk' : k ∈ s'.topicEnds
          · exact .inr ⟨hk', hk''⟩
          · exact .inl ⟨hk, hk'⟩
      · refine List.Nodup.append (nodup_gone s s') (nodup_gone s' s'') fun k hk hk' => ?_
        exact (mem_gone.mp hk).2 (mem_gone.mp hk').1
    have hpools : (s'.gone s'').filterMap (s'.cPools[·]?) = (s'.gone s'').filterMap (s.cPools[·]?) := by
      apply List.filterMap_congr
      intro k hk
      have hk' := (mem_gone.mp hk).1
      exact h.kept k (hsub k hk') hk'
    have happ := h.released.append (hpools ▸ h'.released)
    rw [← List.filterMap_append] at happ
    exact happ.trans (hgone.filterMap _)

theorem del_cases (s : SubscriptionRegistry) (sub : Subscription) :
    s.del sub = (s, none) ∨
    (sub.topicKey ∈ s.topicEnds ∧ s.del sub =
      ({ s with topicEnds := s.topicEnds.erase sub.topicKey, cPools := s.cPools.erase sub.topicKey },
        s.cPools[sub.topicKey]?)) ∨
    ∃ subs, sub.topicKey ∈ s.topicEnds ∧
      s.del sub = ({ s with topicEnds := s.topicEnds.insert sub.topicKey subs }, none) := by
  unfold del
  cases hsubs : s.topicEnds[sub.topicKey]? with
  | none => exact .inl rfl
  | some subs =>
    have hk := ExtMap.mem_of_getElem? hsubs
    dsimp only
    split
    · exact .inr (.inl ⟨hk, rfl⟩)
    · exact .inr (.inr ⟨_, hk, rfl⟩)

theorem mem_of_mem_del {k : TopicKey} (h : k ∈ (s.del sub).1.topicEnds) : k ∈ s.topicEnds := by
  rcases del_cases s sub with hd | ⟨-, hd⟩ | ⟨subs, hk, hd⟩
  · rwa [hd] at h
  · rw [hd] at h
    exact Std.ExtTreeMap.mem_of_mem_erase h
  · rw [hd] at h
    rcases ExtMap.mem_insert.mp h with rfl | hk'
    · exact hk
    · exact hk'

theorem releases_of_subset {s' : SubscriptionRegistry} (hpools : s'.cPools = s.cPools)
    (h : ∀ k ∈ s.topicEnds, k ∈ s'.topicEnds) : s.Releases s' [] where
  kept k _ _ := by rw [hpools]
  released := by
    rw [gone_eq_nil h]
    exact .refl _

theorem releases_del (s : SubscriptionRegistry) (sub : Subscription) :
    s.Releases (s.del sub).1 (s.del sub).2.toList := by
  rcases del_cases s sub with hd | ⟨hk, hd⟩ | ⟨subs, -, hd⟩
  · rw [hd]
    exact releases_of_subset rfl fun k hk => hk
  · rw [hd]
    refine ⟨fun k _ hk' => ?_, ?_⟩
    · rw [ExtMap.getElem?_erase, if_neg]
      rintro rfl
      simp at hk'
    · have hgone : (s.gone ⟨s.topicEnds.erase sub.topicKey, s.cPools.erase sub.topicKey, s.roundIdx⟩).Perm
          [sub.topicKey] := by
        apply (List.perm_ext_iff_of_nodup (nodup_gone _ _) (List.nodup_singleton _)).mpr
        intro k
        rw [mem_gone, List.mem_singleton]
        constructor
        · rintro ⟨hmem, hnot⟩
          by_contra hne
          have hcmp : compare sub.topicKey k ≠ .eq := mt Std.compare_eq_iff_eq.mp (Ne.symm hne)
          exact hnot (Std.ExtTreeMap.mem_erase.mpr ⟨hcmp, hmem⟩)
        · rintro rfl
          exact ⟨hk, by simp⟩
      refine .trans (.of_eq ?_) (hgone.filterMap _).symm
      rw [List.filterMap_cons, List.filterMap_nil]
      cases s.cPools[sub.topicKey]? <;> rfl
  · rw [hd]
    exact releases_of_subset rfl fun k hk => ExtMap.mem_insert.mpr (.inr hk)

theorem mem_of_mem_delEach {subs : List Subscription} {k : TopicKey} {s : SubscriptionRegistry}
    (h : k ∈ (delEach subs s).1.topicEnds) : k ∈ s.topicEnds := by
  induction subs generalizing s with
  | nil => exact h
  | cons b subs ih => exact mem_of_mem_del (ih h)

theorem releases_delEach (subs : List Subscription) (s : SubscriptionRegistry) :
    s.Releases (delEach subs s).1 (delEach subs s).2 := by
  induction subs generalizing s with
  | nil => exact releases_of_subset rfl fun k hk => hk
  | cons b subs ih =>
    exact (releases_del s b).trans (fun _ hk => mem_of_mem_del hk) (fun _ hk => mem_of_mem_delEach hk)
      (ih (s.del b).1)

theorem releases_add (s : SubscriptionRegistry) (sub : Subscription) : s.Releases (s.add sub) [] := by
  unfold add
  split
  · next hnone =>
    refine ⟨fun k hk _ => ?_, ?_⟩
    · rw [ExtMap.getElem?_insert, if_neg]
      rintro rfl
      exact ExtMap.not_mem_of_getElem? hnone hk
    · rw [gone_eq_nil fun k hk => ExtMap.mem_insert.mpr (.inr hk)]
      exact .refl _
  · split
    · exact releases_of_subset rfl fun k hk => hk
    · exact releases_of_subset rfl fun k hk => ExtMap.mem_insert.mpr (.inr hk)

theorem releases_apply (s : SubscriptionRegistry) (st : RegistryStep) :
    s.Releases (st.apply s).1 (st.apply s).2 := by
  cases st with
  | add sub => exact releases_add s sub
  | del sub => exact releases_del s sub
  | removeByNodeId nodeId => exact releases_delEach _ s
  | removeByEndpoint endpoint => exact releases_delEach _ s

end Pools

end SubscriptionRegistry

/-- After any run the registry is in its normal form and denotes the quadruples that were added and
not deleted since, which is what it reports. Additions of what is there and deletions of what is not
change nothing, steps on different quadruples commute, and a pool is released exactly with the last
subscriber of its key. -/
theorem registry_denotes_set {steps : List RegistryStep} (hsteps : ∀ st ∈ steps, st.Plain)
    {s : SubscriptionRegistry} (hs : s = SubscriptionRegistry.run steps) :
    ((∀ k, k ∈ s.cPools ↔ k ∈ s.topicEnds) ∧
      (∀ (k : TopicKey) (subs : Std.ExtTreeMap String Subscription), s.topicEnds[k]? = some subs → subs ≠ ∅) ∧
      ∀ k key b, s.slot k key = some b → b.topicKey = k ∧ b.key = key) ∧
    (s.denote = SubscriptionRegistry.added steps ∧
      (∀ sub : Subscription, sub.Plain → (s.add sub).add sub = s.add sub) ∧
      (∀ sub : Subscription, sub.Plain → sub.quad ∉ s.denote → s.del sub = (s, none)) ∧
      ∀ (st st' : RegistryStep) (q q' : Quad), st.Plain → st'.Plain → st.quad = some q → st'.quad = some q' →
        q ≠ q' → (st'.apply (st.apply s).1).1.topicEnds = (st.apply (st'.apply s).1).1.topicEnds) ∧
    ((∀ prefixed q, (∃ v ∈ s.list prefixed, v.quad = q) ↔
        q ∈ s.denote ∧ hasPrefix q.topic transSubPrefix = prefixed) ∧
      ∀ name endpoint, (∃ pool, (⟨0, "", "", name, endpoint, false⟩, some pool) ∈ s.topic name) ↔
        ∃ q ∈ s.denote, q.topic = name ∧ q.endpoint = endpoint) ∧
    (∀ k, k ∈ s.topicEnds ↔ ∃ b ∈ s.subs, b.topicKey = k) ∧
    ∀ st : RegistryStep, s.Releases (st.apply s).1 (st.apply s).2 := by
  obtain ⟨h, hdenote⟩ := SubscriptionRegistry.Proper.run hsteps
  rw [← hs] at h hdenote
  refine ⟨⟨h.pools, h.nonempty, h.keys⟩, ⟨hdenote, fun sub hsub => ?_, fun sub hsub => h.del_of_not_mem hsub,
    fun st st' q q' hst hst' hq hq' hne => h.commute hst hst' hq hq' hne⟩, ⟨h.list_iff, h.topic_iff⟩,
    fun k => h.mem_topicEnds_iff, fun st => s.releases_apply st⟩
  refine (h.add hsub).add_of_mem hsub ?_
  have hplain : (RegistryStep.add sub).Plain := hsub
  have hadd : (s.add sub).denote = insert sub.quad s.denote := h.denote_apply hplain
  rw [hadd]
  exact Set.mem_insert _ _

section Sample

def builder (nodeId : String) : Subscription := ⟨transMail, nodeId, "dev", "_t_build", "office", false⟩

def registrySteps : List RegistryStep := [.add (builder "a"), .add (builder "b"), .removeByNodeId "a"]

theorem registrySteps_plain : ∀ st ∈ registrySteps, st.Plain := by
  have hplain : ∀ nodeId, ':' ∉ nodeId.toList → (builder nodeId).Plain := fun _ h => by
    have htag : ':' ∉ "dev".toList := by decide
    exact ⟨h, htag⟩
  intro st hst
  simp only [registrySteps, List.mem_cons, List.not_mem_nil, or_false] at hst
  rcases hst with rfl | rfl | rfl
  · exact hplain "a" (by decide)
  · exact hplain "b" (by decide)
  · exact trivial

/-- The second worker stays, and its pool is released with it. -/
theorem registry_denotes_set_sample :
    (SubscriptionRegistry.run registrySteps).denote = {(builder "b").quad} ∧
      (SubscriptionRegistry.run registrySteps).Releases
        ((RegistryStep.removeByNodeId "b").apply (SubscriptionRegistry.run registrySteps)).1
        ((RegistryStep.removeByNodeId "b").apply (SubscriptionRegistry.run registrySteps)).2 := by
  have h := registry_denotes_set registrySteps_plain rfl
  refine ⟨h.2.1.1.trans ?_, h.2.2.2.2 _⟩
  ext q
  simp only [SubscriptionRegistry.added, registrySteps, RegistryStep.onSet, List.foldl_cons, List.foldl_nil,
    Set.mem_ofPred_eq, Set.mem_insert_iff, Set.mem_singleton_iff, Set.mem_empty_iff_false, or_false]
  constructor
  · rintro ⟨rfl | rfl, hne⟩
    · rfl
    · exact absurd rfl hne
  · rintro rfl
    exact ⟨.inl rfl, by decide⟩

end Sample

end Tarantula
