import Tarantula.Membership
import Tarantula.Separator

/-! To whom a virtual node belongs. The source tells it by the name of a member being at the start
of the name of the virtual node, which is right as long as no member has a name at the start of a
virtual node of another one. -/

namespace Tarantula

/-- The virtual node is one of those that `OnAdd` creates for the member. -/
def owned (weight : Nat) (name : String) (v : Node) : Bool :=
  (List.range weight).any fun w => v.name = name ++ "#" ++ toString w

theorem owned_iff {weight : Nat} {name : String} {v : Node} :
    owned weight name v = true ↔ ∃ w < weight, v.name = name ++ "#" ++ toString w := by
  simp [owned]

theorem owned_unique {weight : Nat} {name name' : String} {v : Node} (h : owned weight name v = true)
    (h' : owned weight name' v = true) : name = name' := by
  obtain ⟨w, -, hw⟩ := owned_iff.mp h
  obtain ⟨w', -, hw'⟩ := owned_iff.mp h'
  exact (separated_inj_right rfl (not_mem_toString (by decide) w) (not_mem_toString (by decide) w')
    (hw.symm.trans hw')).1

theorem hasPrefix_of_owned {weight : Nat} {name : String} {v : Node} (h : owned weight name v = true) :
    hasPrefix v.name name = true := by
  obtain ⟨w, -, hw⟩ := owned_iff.mp h
  rw [hw, String.append_assoc]
  exact hasPrefix_append name _

namespace NodeRing

theorem mem_of_rangeOfRing {m : NodeRing} (hs : Sorted m.nodes) {t : UInt32} {before owner : Node}
    (h : m.rangeOfRing t = some (before, owner)) : owner ∈ m.nodes := by
  have hne : m.nodes ≠ [] := fun he => by simp [rangeOfRing, ownerOf, he] at h
  obtain ⟨ix, hix, hlt, -⟩ := exists_ownerOf t hs hne
  rw [rangeOfRing, hix] at h
  cases h
  rw [List.getD_eq_getElem _ _ hlt]
  exact List.getElem_mem hlt

theorem announce_eq_announceBy {self : String} {own : Node → Bool} {added : List Node} {m : NodeRing}
    (hs : Sorted m.nodes) (h : ∀ v ∈ added ++ m.nodes, localNode self v = own v) (sync : RingSync) :
    announce self added m sync = announceBy own added m sync := by
  induction added generalizing m sync with
  | nil => rfl
  | cons n added ih =>
    have hn := h n (by simp)
    have hrest : ∀ v ∈ added ++ sortNodes (m.nodes ++ [n]), localNode self v = own v := fun v hv => by
      apply h
      simp only [List.mem_append, mem_sortNodes, List.mem_cons, List.not_mem_nil] at hv ⊢
      tauto
    have htail := ih (m := { m with nodes := sortNodes (m.nodes ++ [n]) }) (sortNodes_sorted _) hrest
    rw [announce, announceBy, announceBy, hn]
    split
    · exact htail sync
    · cases hrange : m.rangeOfRing n.ringToken with
      | none => rfl
      | some r =>
        obtain ⟨before, owner⟩ := r
        have howner := h owner (by simp [mem_of_rangeOfRing hs hrange])
        dsimp only
        rw [howner]
        exact htail _

end NodeRing

namespace MemberRings

open NodeRing MemberHashRing

/-- No virtual node of another live member has the name at its start. -/
def Unshadowed (s : MemberRings) (name : String) : Prop :=
  ∀ o ∈ s.live, o.name ≠ name → ∀ w < s.ring.weight, hasPrefix (o.name ++ "#" ++ toString w) name = false

variable {hash32 : Bytes → UInt32} {s : MemberRings} {nodes : List Node}

theorem exists_owner (hp : (nodes.map bare).Perm (s.virtual hash32)) {v : Node} (hv : v ∈ nodes) :
    ∃ o ∈ s.live, owned s.ring.weight o.name v = true ∧ v.ip = o.ip := by
  have hbare := hp.mem_iff.mp (List.mem_map_of_mem hv)
  obtain ⟨o, ho, hw⟩ := List.mem_flatMap.mp hbare
  obtain ⟨w, hw, heq⟩ := List.mem_map.mp hw
  have hname : v.name = o.name ++ "#" ++ toString w := congrArg Node.name heq.symm
  have hip : v.ip = o.ip := (congrArg Node.ip heq.symm :)
  exact ⟨o, ho, owned_iff.mpr ⟨w, List.mem_range.mp hw, hname⟩, hip⟩

theorem exists_virtual (hp : (nodes.map bare).Perm (s.virtual hash32)) {o : Node} (ho : o ∈ s.live) {w : Nat}
    (hw : w < s.ring.weight) : ∃ v ∈ nodes, v.name = o.name ++ "#" ++ toString w := by
  have hmem : bare (vNode hash32 o w) ∈ s.virtual hash32 :=
    List.mem_flatMap.mpr ⟨o, ho, List.mem_map.mpr ⟨w, List.mem_range.mpr hw, rfl⟩⟩
  obtain ⟨v, hv, heq⟩ := List.mem_map.mp (hp.mem_iff.mpr hmem)
  have hname : v.name = o.name ++ "#" ++ toString w := (congrArg Node.name heq :)
  exact ⟨v, hv, hname⟩

/-- Under the condition the test by the start of the name tells the owner. -/
theorem Unshadowed.localNode_eq {name : String} (h : s.Unshadowed name)
    (hp : (nodes.map bare).Perm (s.virtual hash32)) {v : Node} (hv : v ∈ nodes) :
    localNode name v = owned s.ring.weight name v := by
  obtain ⟨o, ho, howned, -⟩ := exists_owner hp hv
  obtain ⟨w, hw, hname⟩ := owned_iff.mp howned
  unfold localNode
  by_cases heq : o.name = name
  · subst heq
    rw [howned, hasPrefix_of_owned howned]
  · have hnot : owned s.ring.weight name v = false := by
      by_contra hown
      exact heq (owned_unique howned (by simpa using hown))
    rw [hnot, hname, h o ho heq w hw]

theorem unshadowed_of_localNode {name : String} (hp : (nodes.map bare).Perm (s.virtual hash32))
    (h : ∀ v ∈ nodes, localNode name v = owned s.ring.weight name v) : s.Unshadowed name := by
  intro o ho hne w hw
  obtain ⟨v, hv, hname⟩ := exists_virtual hp ho hw
  have hnot : ¬ owned s.ring.weight name v = true := fun hown =>
    hne (owned_unique (owned_iff.mpr ⟨w, hw, hname⟩) hown)
  have heq := h v hv
  rw [Bool.eq_false_iff.mpr hnot, localNode, hname] at heq
  exact heq

/-- `OnUpdate` as it is meant: only the virtual nodes of the member get its Meta. -/
def updated (s : MemberRings) (node : Node) : List Node :=
  s.ring.nodes.map fun v => if owned s.ring.weight node.name v then { v with mt := node.mt } else v

theorem Unshadowed.onUpdate_eq {node : Node} (h : s.Unshadowed node.name)
    (hp : (s.ring.nodes.map bare).Perm (s.virtual hash32)) :
    (s.ring.onUpdate node).nodes = s.updated node := by
  refine List.map_congr_left fun v hv => ?_
  have hlocal : hasPrefix v.name node.name = owned s.ring.weight node.name v := h.localNode_eq hp hv
  rw [hlocal]

/-- A Meta that no node has shows which nodes are updated. -/
theorem localNode_of_onUpdate {name : String}
    (h : ∀ node : Node, node.name = name → (s.ring.onUpdate node).nodes = s.updated node) {v : Node}
    (hv : v ∈ s.ring.nodes) : localNode name v = owned s.ring.weight name v := by
  have hnode := h { v with name := name, mt := v.mt ++ "#" } rfl
  have hmt : v.mt ++ "#" ≠ v.mt := by
    intro heq
    have hlen := congrArg (fun t : String => t.toList.length) heq
    simp at hlen
  have hat := List.map_inj_left.mp hnode v hv
  unfold localNode
  by_cases hpre : hasPrefix v.name name = true
  · by_cases hown : owned s.ring.weight name v = true
    · rw [hpre, hown]
    · rw [if_pos hpre, if_neg hown] at hat
      exact absurd (congrArg Node.mt hat) hmt
  · by_cases hown : owned s.ring.weight name v = true
    · exact absurd (hasPrefix_of_owned hown) hpre
    · rw [Bool.eq_false_iff.mpr hpre, Bool.eq_false_iff.mpr hown]

end MemberRings

/-- The rings with the Meta that each member had last. -/
structure OwnedRings where
  rings : MemberRings
  metas : String → String

namespace OwnedRings

open MemberRings MemberHashRing

def initial : OwnedRings := ⟨.initial, fun _ => ""⟩

def record (metas : String → String) : MemberEvent → String → String
  | .join node | .update node => Function.update metas node.name node.mt
  | .leave _ => metas

def step (hash32 : Bytes → UInt32) (self : String) (s : OwnedRings) (e : MemberEvent) : Option OwnedRings :=
  (s.rings.handle hash32 self e).map fun rings => ⟨rings, record s.metas e⟩

/-- A new member has an address of its own, and neither is its name at the start of a virtual node of a
live member, nor the other way round. -/
def Distinct (s : MemberRings) : MemberEvent → Prop
  | .join node => node.ip ∉ s.live.map (·.ip) ∧ ∀ o ∈ s.live, ∀ w < s.ring.weight,
      hasPrefix (o.name ++ "#" ++ toString w) node.name = false ∧
        hasPrefix (node.name ++ "#" ++ toString w) o.name = false
  | _ => True

instance (s : MemberRings) : (e : MemberEvent) → Decidable (Distinct s e)
  | .join _ => inferInstanceAs (Decidable (_ ∧ ∀ o ∈ s.live, ∀ w < s.ring.weight, _))
  | .leave _ | .update _ => inferInstanceAs (Decidable True)

/-- Names are told apart, and every virtual node has the Meta of its owner. -/
structure Owned (hash32 : Bytes → UInt32) (s : OwnedRings) : Prop where
  tracked : Tracked hash32 s.rings
  unshadowed : ∀ n ∈ s.rings.live, s.rings.Unshadowed n.name
  metas : ∀ v ∈ s.rings.ring.nodes, ∀ n ∈ s.rings.live,
    owned s.rings.ring.weight n.name v = true → v.mt = s.metas n.name

variable {hash32 : Bytes → UInt32} {self : String} {s t : OwnedRings} {e : MemberEvent} {node : Node}

theorem onRemove_some {m : MemberHashRing} {removed : List Node} (h : (m.onRemove node).2 = some removed) :
    removed = (m.nodes.filter (·.ip = node.ip)).map ({ · with state := nodeStateDead }) ∧
      ∃ first ∈ m.nodes.find? (·.ip = node.ip), ':' ∈ first.mt.toList := by
  unfold onRemove at h
  dsimp only at h
  rw [← List.head?_filter]
  cases hf : m.nodes.filter (·.ip = node.ip) with
  | nil =>
    rw [hf] at h
    cases h
  | cons first rest =>
    rw [hf, List.map_cons] at h
    dsimp only at h
    split at h
    · next hcolon => exact ⟨(Option.some.inj h).symm, first, rfl, hcolon⟩
    · cases h

theorem apart_of_handle {s t : MemberRings} (h : s.handle hash32 self e = some t) (hd : Distinct s e) :
    s.Apart e := by
  cases e with
  | join node => exact hd.1
  | update node => exact trivial
  | leave node =>
    obtain ⟨removed, hr, -⟩ := Option.map_eq_some_iff.mp h
    exact (onRemove_some hr).2

theorem step_cases (h : s.step hash32 self e = some t) :
    s.rings.handle hash32 self e = some t.rings ∧ t.metas = record s.metas e := by
  obtain ⟨rings, hr, rfl⟩ := Option.map_eq_some_iff.mp h
  exact ⟨hr, rfl⟩

theorem unshadowed_join {s t : MemberRings} (h : ∀ n ∈ s.live, s.Unshadowed n.name)
    (hdist : Distinct s (.join node)) (hweight : t.ring.weight = s.ring.weight)
    (hlive : t.live = s.live ++ [node]) : ∀ n ∈ t.live, t.Unshadowed n.name := by
  intro n hn o ho hne w hw
  rw [hweight] at hw
  rw [hlive, List.mem_append, List.mem_singleton] at hn ho
  rcases hn with hn | rfl
  · rcases ho with ho | rfl
    · exact h n hn o ho hne w hw
    · exact (hdist.2 n hn w hw).2
  · rcases ho with ho | rfl
    · exact (hdist.2 o ho w hw).1
    · exact absurd rfl hne

namespace Owned

theorem initial : Owned hash32 initial where
  tracked := .initial
  unshadowed n hn := by cases hn
  metas v hv := by cases hv

theorem join (h : Owned hash32 s) (hd : s.rings.Delivered (.join node))
    (hdist : Distinct s.rings (.join node))
    (hs : s.step hash32 self (.join node) = some t) (ht : Tracked hash32 t.rings) : Owned hash32 t := by
  obtain ⟨hrings, hmetas⟩ := step_cases hs
  obtain ⟨hring, hlive⟩ := handle_join hrings
  have hweight : t.rings.ring.weight = s.rings.ring.weight := by rw [hring]; rfl
  have hfresh : ∀ n ∈ s.rings.live, n.name ≠ node.name := fun n hn heq => hd (heq ▸ List.mem_map_of_mem hn)
  refine ⟨ht, unshadowed_join h.unshadowed hdist hweight hlive, fun v hv n hn hown => ?_⟩
  rw [hmetas]
  rw [hweight] at hown
  rw [hring, onAdd, mem_sortNodes, List.mem_append] at hv
  rw [hlive, List.mem_append, List.mem_singleton] at hn
  rcases hv with hv | hv
  · obtain ⟨o, ho, howned, -⟩ := exists_owner h.tracked.nodes hv
    have heq : o.name = n.name := owned_unique howned hown
    rcases hn with hn | rfl
    · rw [record, Function.update_of_ne (hfresh n hn)]
      exact h.metas v hv n hn hown
    · exact absurd heq (hfresh o ho)
  · obtain ⟨w, hw, rfl⟩ := List.mem_map.mp hv
    have howned : owned s.rings.ring.weight node.name (vNode hash32 node w) = true :=
      owned_iff.mpr ⟨w, List.mem_range.mp hw, rfl⟩
    rw [owned_unique hown howned, record, Function.update_self]
    rfl

theorem leave (h : Owned hash32 s) (hs : s.step hash32 self (.leave node) = some t)
    (ht : Tracked hash32 t.rings) : Owned hash32 t := by
  obtain ⟨hrings, hmetas⟩ := step_cases hs
  obtain ⟨hring, hlive⟩ := handle_leave hrings
  have hweight : t.rings.ring.weight = s.rings.ring.weight := by rw [hring]; rfl
  have hsub : ∀ n ∈ t.rings.live, n ∈ s.rings.live := fun n hn => by
    rw [hlive] at hn
    exact (List.mem_filter.mp hn).1
  refine ⟨ht, fun n hn o ho hne w hw => ?_, fun v hv n hn hown => ?_⟩
  · rw [hweight] at hw
    exact h.unshadowed n (hsub n hn) o (hsub o ho) hne w hw
  · rw [hmetas]
    rw [hweight] at hown
    rw [hring, onRemove, mem_sortNodes] at hv
    exact h.metas v (List.mem_filter.mp hv).1 n (hsub n hn) hown

theorem update (h : Owned hash32 s) (hd : s.rings.Delivered (.update node))
    (hs : s.step hash32 self (.update node) = some t) (ht : Tracked hash32 t.rings) : Owned hash32 t := by
  obtain ⟨hrings, hmetas⟩ := step_cases hs
  have hnext : t.rings = { s.rings with ring := s.rings.ring.onUpdate node } := (Option.some.inj hrings).symm
  obtain ⟨m, hm, hname⟩ := List.mem_map.mp hd
  have hupdated : t.rings.ring.nodes = s.rings.updated node := by
    rw [hnext]
    exact Unshadowed.onUpdate_eq (hname ▸ h.unshadowed m hm) h.tracked.nodes
  refine ⟨ht, fun n hn => ?_, fun v hv n hn hown => ?_⟩
  · rw [hnext] at hn ⊢
    exact h.unshadowed n hn
  · rw [hnext] at hn hown
    rw [hupdated] at hv
    obtain ⟨v', hv', rfl⟩ := List.mem_map.mp hv
    rw [hmetas, record]
    by_cases hnode : owned s.rings.ring.weight node.name v' = true
    · rw [if_pos hnode] at hown ⊢
      have hsame : n.name = node.name := owned_unique (v := v') hown hnode
      rw [hsame, Function.update_self]
    · rw [if_neg hnode] at hown ⊢
      have hne : n.name ≠ node.name := fun heq => hnode (heq ▸ hown)
      rw [Function.update_of_ne hne]
      exact h.metas v' hv' n hn hown

theorem step (h : Owned hash32 s) (hd : s.rings.Delivered e) (hdist : Distinct s.rings e)
    (hs : s.step hash32 self e = some t) : Owned hash32 t := by
  have hrings := (step_cases hs).1
  have ht : Tracked hash32 t.rings := h.tracked.after hd (apart_of_handle hrings hdist) hrings
  cases e with
  | join node => exact h.join hd hdist hs ht
  | leave node => exact h.leave hs ht
  | update node => exact h.update hd hs ht

theorem onRemove_meta (h : Owned hash32 s) (hd : s.rings.Delivered (.leave node)) {removed : List Node}
    (hr : (s.rings.ring.onRemove node).2 = some removed) {v : Node} (hv : v ∈ removed) :
    v.mt = s.metas node.name := by
  obtain ⟨n, hn, hname, hip⟩ := hd
  rw [(onRemove_some hr).1] at hv
  obtain ⟨v', hv', rfl⟩ := List.mem_map.mp hv
  obtain ⟨hv', hvip⟩ := List.mem_filter.mp hv'
  obtain ⟨o, ho, hown, hoip⟩ := exists_owner h.tracked.nodes hv'
  have hsame : o = n := by
    apply List.inj_on_of_nodup_map h.tracked.ips ho hn
    rw [← hoip, hip]
    simpa using hvip
  rw [hsame] at hown
  rw [← hname]
  exact h.metas v' hv' n hn hown

theorem announce_eq (h : Owned hash32 s) (hdist : Distinct s.rings (.join node)) {n : Node}
    (hn : n ∈ s.rings.live ++ [node]) (sync : RingSync) :
    NodeRing.announce n.name (sortNodes (s.rings.ring.onAdd hash32 node).2) s.rings.backRing sync =
      NodeRing.announceBy (owned s.rings.ring.weight n.name) (sortNodes (s.rings.ring.onAdd hash32 node).2)
        s.rings.backRing sync := by
  -- the members after the join, with all their virtual nodes
  let t : MemberRings := { s.rings with live := s.rings.live ++ [node] }
  have hperm : ((sortNodes (s.rings.ring.onAdd hash32 node).2 ++ s.rings.backRing.nodes).map bare).Perm
      (t.virtual hash32) := by
    have hvirtual : t.virtual hash32 =
        s.rings.virtual hash32 ++ (s.rings.ring.onAdd hash32 node).2.map bare := virtual_join rfl rfl
    rw [hvirtual, List.map_append]
    exact (((sortNodes_perm _).map bare).append h.tracked.back).trans List.perm_append_comm
  have hall : ∀ n ∈ t.live, t.Unshadowed n.name := unshadowed_join h.unshadowed hdist rfl rfl
  exact NodeRing.announce_eq_announceBy h.tracked.backSorted
    (fun v hv => (hall n hn).localNode_eq hperm hv) sync

end Owned

end OwnedRings

/-- With the virtual nodes of the live members on the ring, `OnUpdate` changes those of one member, and
`localNode` holds of them, exactly if its name is not at the start of a virtual node of another member.
While no member joins whose name, or address, is not told apart in this way, every virtual node has one
owner among the members, which alone announces its ranges, and a member that leaves is removed with its
own Meta. -/
theorem virtual_nodes_owned (hash32 : Bytes → UInt32) :
    (∀ s : MemberRings, (s.ring.nodes.map MemberRings.bare).Perm (s.virtual hash32) → ∀ n ∈ s.live,
      ((∀ node : Node, node.name = n.name → (s.ring.onUpdate node).nodes = s.updated node) ↔
        s.Unshadowed n.name) ∧
      ((∀ v ∈ s.ring.nodes, localNode n.name v = owned s.ring.weight n.name v) ↔ s.Unshadowed n.name)) ∧
    ∀ (self : String) (s : OwnedRings),
      Reaches (OwnedRings.step hash32 self) (fun s e => s.rings.Delivered e ∧ OwnedRings.Distinct s.rings e)
        .initial s →
      (∀ v ∈ s.rings.ring.nodes, ∃ n ∈ s.rings.live, owned s.rings.ring.weight n.name v = true ∧
        v.mt = s.metas n.name ∧ ∀ m ∈ s.rings.live, localNode m.name v = true ↔ m = n) ∧
      (∀ node, s.rings.Delivered (.join node) → OwnedRings.Distinct s.rings (.join node) →
        ∀ n ∈ s.rings.live ++ [node], ∀ sync,
          NodeRing.announce n.name (sortNodes (s.rings.ring.onAdd hash32 node).2) s.rings.backRing sync =
            NodeRing.announceBy (owned s.rings.ring.weight n.name)
              (sortNodes (s.rings.ring.onAdd hash32 node).2) s.rings.backRing sync) ∧
      ∀ node, s.rings.Delivered (.leave node) → ∀ removed, (s.rings.ring.onRemove node).2 = some removed →
        ∀ v ∈ removed, v.mt = s.metas node.name := by
  refine ⟨fun s hp n _ => ⟨⟨fun h => ?_, fun h node hnode => ?_⟩, ⟨fun h => ?_, fun h v hv => ?_⟩⟩,
    fun self s hr => ?_⟩
  · exact MemberRings.unshadowed_of_localNode hp fun v hv => MemberRings.localNode_of_onUpdate h hv
  · exact MemberRings.Unshadowed.onUpdate_eq (hnode ▸ h) hp
  · exact MemberRings.unshadowed_of_localNode hp h
  · exact h.localNode_eq hp hv
  · have h : OwnedRings.Owned hash32 s := hr.invariant .initial fun s e t hs hok hst =>
      hs.step hok.1 hok.2 hst
    refine ⟨fun v hv => ?_, fun node _ hdist n hn sync => h.announce_eq hdist hn sync,
      fun node hd removed hr v hv => h.onRemove_meta hd hr hv⟩
    obtain ⟨n, hn, hown, -⟩ := MemberRings.exists_owner h.tracked.nodes hv
    refine ⟨n, hn, hown, h.metas v hv n hn hown, fun m hm => ?_⟩
    rw [(h.unshadowed m hm).localNode_eq h.tracked.nodes hv]
    constructor
    · intro hm'
      exact List.inj_on_of_nodup_map h.tracked.names hm hn (owned_unique hm' hown)
    · rintro rfl
      exact hown

section Sample

open NodeRing MemberHashRing

/-- Two members join, and the second one gets another Meta and leaves. -/
theorem virtual_nodes_owned_sample : ∃ s : OwnedRings,
    Reaches (OwnedRings.step Murmur3.sum32 "node-a")
      (fun s e => s.rings.Delivered e ∧ OwnedRings.Distinct s.rings e) .initial s ∧
    s.rings.live.map (·.name) = ["node-a", "node-b"] ∧ s.metas "node-b" = "web:b" ∧
      ∀ removed, (s.rings.ring.onRemove nodeB).2 = some removed → ∀ v ∈ removed, v.mt = s.metas "node-b" := by
  obtain ⟨s, hr, hlive, hb⟩ := exists_reaches_of_checkedRun (OwnedRings.step Murmur3.sum32 "node-a")
    (fun s e => s.rings.Delivered e ∧ OwnedRings.Distinct s.rings e)
    (fun s => s.rings.live = [nodeA, nodeB] ∧ s.metas "node-b" = "web:b") .initial
    [.join nodeA, .join nodeB, .update { nodeB with mt := "web:b" }] (by decide +kernel)
  have hd : s.rings.Delivered (.leave nodeB) := by
    refine ⟨nodeB, ?_, rfl, rfl⟩
    rw [hlive]
    exact List.mem_cons_of_mem _ List.mem_cons_self
  have howned := (virtual_nodes_owned Murmur3.sum32).2 "node-a" s hr
  refine ⟨s, hr, by rw [hlive]; rfl, hb, fun removed hremoved v hv => ?_⟩
  exact howned.2.2 nodeB hd removed hremoved v hv

def game1 : Node := sampleMember "game.1" "10.0.0.1"
def game10 : Node := sampleMember "game.10" "10.0.0.2"

/-- The names are different, but all virtual nodes of `game.10` start with `game.1`. So `game.1` takes them
for its own, its Meta goes to them, and when `game.10` leaves it is removed with the Meta of `game.1`. -/
theorem virtual_nodes_of_another : ∃ s : OwnedRings,
    Reaches (OwnedRings.step Murmur3.sum32 "game.1")
      (fun s e => s.rings.Delivered e ∧ s.rings.Apart e) .initial s ∧
      (s.rings.live.map (·.name)).Nodup ∧
      (∀ v ∈ s.rings.ring.nodes, owned nodeWeight "game.10" v = true →
        localNode "game.1" v = true ∧ v.mt = "web:1" ∧ s.metas "game.10" = "tag:game.10") ∧
      ((s.rings.ring.onRemove game10).2.map fun removed => removed.map (·.mt)) =
        some (List.replicate 7 "web:1") :=
  exists_reaches_of_checkedRun (OwnedRings.step Murmur3.sum32 "game.1")
    (fun s e => s.rings.Delivered e ∧ s.rings.Apart e)
    (fun s => (s.rings.live.map (·.name)).Nodup ∧
      (∀ v ∈ s.rings.ring.nodes, owned nodeWeight "game.10" v = true →
        localNode "game.1" v = true ∧ v.mt = "web:1" ∧ s.metas "game.10" = "tag:game.10") ∧
      ((s.rings.ring.onRemove game10).2.map fun removed => removed.map (·.mt)) =
        some (List.replicate 7 "web:1"))
    .initial [.join game1, .join game10, .update { game1 with mt := "web:1" }] (by decide +kernel)

end Sample

end Tarantula
