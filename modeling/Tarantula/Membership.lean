import Tarantula.ConsistentHashing
import Tarantula.DataService
import Tarantula.Runs

/-! The two rings of a postoffice over a history of membership events. While no two live
members share an address, both rings hold the virtual nodes of the live members and the
number of hosts is right. -/

namespace Tarantula

/-- `live` are the members as they joined. -/
structure MemberRings where
  ring : MemberHashRing
  backRing : NodeRing
  live : List Node
  deriving DecidableEq, Repr

inductive MemberEvent
  | join (node : Node) | leave (node : Node) | update (node : Node)
  deriving DecidableEq, Repr

namespace MemberRings

open NodeRing MemberHashRing

def initial : MemberRings := ⟨⟨⟨[], 0⟩, nodeWeight⟩, ⟨[], 0⟩, []⟩

variable (hash32 : Bytes → UInt32) (self : String)

/-- The loops of the two rings handle an event: `none` where one panics. -/
def handle (s : MemberRings) : MemberEvent → Option MemberRings
  | .join node =>
    let (ring, added) := s.ring.onAdd hash32 node
    (s.backRing.balanceOnNodeAdded self added).map fun (backRing, _) => ⟨ring, backRing, s.live ++ [node]⟩
  | .leave node =>
    let (ring, removed) := s.ring.onRemove node
    removed.map fun removed =>
      ⟨ring, s.backRing.balanceOnNodeRemoved removed, s.live.filter (·.name ≠ node.name)⟩
  | .update node => some { s with ring := s.ring.onUpdate node }

/-- `Listen` hands the events to the loops, except for the leave of the local node `self`. -/
def step (s : MemberRings) (e : MemberEvent) : Option MemberRings :=
  match e with
  | .leave node =>
    if self ≠ node.name then s.handle hash32 self e
    else some { s with live := s.live.filter (·.name ≠ node.name) }
  | .join _ | .update _ => s.handle hash32 self e

/-- The events that memberlist delivers: they are keyed by name, and a leave carries the
address of the join. -/
def Delivered (s : MemberRings) : MemberEvent → Prop
  | .join node => node.name ∉ s.live.map (·.name)
  | .leave node => ∃ n ∈ s.live, n.name = node.name ∧ n.ip = node.ip
  | .update node => node.name ∈ s.live.map (·.name)

/-- No live member has the address of a new one, and the Meta that the ring has for a
member that leaves has a colon. -/
def Apart (s : MemberRings) : MemberEvent → Prop
  | .join node => node.ip ∉ s.live.map (·.ip)
  | .leave node => ∃ n ∈ s.ring.nodes.find? (·.ip = node.ip), ':' ∈ n.mt.toList
  | .update _ => True

def Stays : MemberEvent → Prop
  | .leave node => self ≠ node.name
  | _ => True

instance (s : MemberRings) (e : MemberEvent) : Decidable (s.Delivered e) := by
  cases e <;> unfold Delivered <;> infer_instance

instance (s : MemberRings) (e : MemberEvent) : Decidable (s.Apart e) := by
  cases e <;> unfold Apart <;> infer_instance

instance (e : MemberEvent) : Decidable (Stays self e) := by
  cases e <;> unfold Stays <;> infer_instance

/-- A virtual node without the Meta, which only the first ring keeps up to date. -/
def bare (n : Node) : Node := { n with mt := "" }

def virtual (s : MemberRings) : List Node :=
  s.live.flatMap fun node => (List.range s.ring.weight).map fun w => bare (vNode hash32 node w)

structure Consistent (s : MemberRings) : Prop where
  sorted : Sorted s.ring.nodes
  nodes : (s.ring.nodes.map bare).Perm (s.virtual hash32)
  back : (s.backRing.nodes.map bare).Perm (s.virtual hash32)
  num : s.ring.nodeNum = hosts s.ring.nodes

/-- The invariant: also the live members are told apart, and both counters count them. -/
structure Tracked (s : MemberRings) : Prop extends Consistent hash32 s where
  names : (s.live.map (·.name)).Nodup
  ips : (s.live.map (·.ip)).Nodup
  weight : s.ring.weight = nodeWeight
  ringNum : s.ring.nodeNum = s.live.length
  backNum : s.backRing.nodeNum = s.live.length
  backSorted : Sorted s.backRing.nodes

variable {hash32 self} {s t : MemberRings}

theorem mem_virtual_ip {x : String} (hw : s.ring.weight = nodeWeight) :
    x ∈ (s.virtual hash32).map (·.ip) ↔ x ∈ s.live.map (·.ip) := by
  simp only [virtual, List.mem_map, List.mem_flatMap, List.mem_range, hw, nodeWeight]
  constructor
  · rintro ⟨_, ⟨node, hn, w, _, rfl⟩, rfl⟩
    exact ⟨node, hn, rfl⟩
  · rintro ⟨node, hn, rfl⟩
    exact ⟨_, ⟨node, hn, 0, by omega, rfl⟩, rfl⟩

theorem map_ip_bare (nodes : List Node) : (nodes.map bare).map (·.ip) = nodes.map (·.ip) := by
  rw [List.map_map]
  rfl

theorem mem_nodes_ip {nodes : List Node} {x : String} (hw : s.ring.weight = nodeWeight)
    (hp : (nodes.map bare).Perm (s.virtual hash32)) :
    x ∈ nodes.map (·.ip) ↔ x ∈ s.live.map (·.ip) := by
  rw [← map_ip_bare, (hp.map _).mem_iff, mem_virtual_ip hw]

theorem hosts_eq {nodes : List Node} (hw : s.ring.weight = nodeWeight)
    (hips : (s.live.map (·.ip)).Nodup) (hp : (nodes.map bare).Perm (s.virtual hash32)) :
    hosts nodes = s.live.length := by
  have hperm : (nodes.map (·.ip)).eraseDups.Perm (s.live.map (·.ip)) := by
    rw [List.perm_ext_iff_of_nodup (nodup_eraseDups _) hips]
    intro x
    rw [List.mem_eraseDups, mem_nodes_ip hw hp]
  rw [hosts, hperm.length_eq, List.length_map]

theorem Tracked.of (sorted : Sorted s.ring.nodes) (nodes : (s.ring.nodes.map bare).Perm (s.virtual hash32))
    (back : (s.backRing.nodes.map bare).Perm (s.virtual hash32)) (names : (s.live.map (·.name)).Nodup)
    (ips : (s.live.map (·.ip)).Nodup) (weight : s.ring.weight = nodeWeight)
    (ringNum : s.ring.nodeNum = s.live.length) (backNum : s.backRing.nodeNum = s.live.length)
    (backSorted : Sorted s.backRing.nodes) : Tracked hash32 s :=
  ⟨⟨sorted, nodes, back, by rw [ringNum, hosts_eq weight ips nodes]⟩, names, ips, weight, ringNum, backNum,
    backSorted⟩

theorem Tracked.initial : Tracked hash32 initial where
  sorted := .nil
  nodes := .nil
  back := .nil
  num := rfl
  names := .nil
  ips := .nil
  weight := rfl
  ringNum := rfl
  backNum := rfl
  backSorted := .nil

theorem virtual_join {node : Node} (hw : t.ring.weight = s.ring.weight)
    (hlive : t.live = s.live ++ [node]) :
    t.virtual hash32 = s.virtual hash32 ++ (s.ring.onAdd hash32 node).2.map bare := by
  simp [virtual, hw, hlive, onAdd, Function.comp_def]

theorem handle_join {node : Node} (h : s.handle hash32 self (.join node) = some t) :
    t.ring = (s.ring.onAdd hash32 node).1 ∧ t.live = s.live ++ [node] := by
  obtain ⟨⟨after, sent⟩, _, rfl⟩ := Option.map_eq_some_iff.mp h
  exact ⟨rfl, rfl⟩

theorem handle_leave {node : Node} (h : s.handle hash32 self (.leave node) = some t) :
    t.ring = (s.ring.onRemove node).1 ∧ t.live = s.live.filter (·.name ≠ node.name) := by
  obtain ⟨removed, _, rfl⟩ := Option.map_eq_some_iff.mp h
  exact ⟨rfl, rfl⟩

theorem Tracked.join (h : Tracked hash32 s) {node : Node} (hd : s.Delivered (.join node))
    (ha : s.Apart (.join node)) : ∃ t, s.handle hash32 self (.join node) = some t ∧ Tracked hash32 t := by
  have hback : s.backRing.nodeNum ≠ 0 → s.backRing.nodes ≠ [] := by
    intro hnum he
    have hp := h.back
    rw [he] at hp
    have hlive : hosts [] = s.live.length := hosts_eq h.weight h.ips hp
    rw [h.backNum, ← hlive] at hnum
    exact hnum rfl
  obtain ⟨after, sent, hbalance, hperm, hnum, hsafter⟩ :=
    balanceOnNodeAdded_perm self (s.ring.onAdd hash32 node).2 hback
  have hvirtual : (⟨(s.ring.onAdd hash32 node).1, after, s.live ++ [node]⟩ : MemberRings).virtual hash32 =
      s.virtual hash32 ++ (s.ring.onAdd hash32 node).2.map bare := virtual_join rfl rfl
  refine ⟨⟨(s.ring.onAdd hash32 node).1, after, s.live ++ [node]⟩, by simp [handle, hbalance],
    .of (onAdd_sorted hash32 s.ring node) ?_ ?_ ?_ ?_ h.weight ?_ ?_ (hsafter h.backSorted)⟩
  · rw [hvirtual]
    refine ((sortNodes_perm _).map bare).trans ?_
    rw [List.map_append]
    exact h.nodes.append_right _
  · rw [hvirtual]
    refine (hperm.map bare).trans ?_
    rw [List.map_append]
    exact List.perm_append_comm.trans (h.back.append_right _)
  · simpa [List.nodup_append] using ⟨h.names, fun a ha' he => hd (he ▸ List.mem_map_of_mem ha')⟩
  · simpa [List.nodup_append] using ⟨h.ips, fun a ha' he => ha (he ▸ List.mem_map_of_mem ha')⟩
  · simp [onAdd, h.ringNum]
  · simp [hnum, h.backNum]

theorem live_filter {node n₀ : Node} (hnames : (s.live.map (·.name)).Nodup)
    (hips : (s.live.map (·.ip)).Nodup) (hn₀ : n₀ ∈ s.live) (hname : n₀.name = node.name)
    (hip : n₀.ip = node.ip) :
    s.live.filter (·.name ≠ node.name) = s.live.filter (·.ip ≠ node.ip) ∧
      (s.live.filter (·.name ≠ node.name)).length + 1 = s.live.length := by
  have hof : ∀ n ∈ s.live, (n.name = node.name ↔ n = n₀) ∧ (n.ip = node.ip ↔ n = n₀) := by
    intro n hn
    refine ⟨⟨fun he => ?_, fun he => he ▸ hname⟩, ⟨fun he => ?_, fun he => he ▸ hip⟩⟩
    · exact List.inj_on_of_nodup_map hnames hn hn₀ (he.trans hname.symm)
    · exact List.inj_on_of_nodup_map hips hn hn₀ (he.trans hip.symm)
  constructor
  · refine List.filter_congr fun n hn => ?_
    simp [hof n hn]
  · have herase : s.live.filter (·.name ≠ node.name) = s.live.erase n₀ := by
      rw [(List.Nodup.of_map _ hnames).erase_eq_filter]
      refine List.filter_congr fun n hn => ?_
      by_cases he : n = n₀
      · simp [he, hname]
      · simp [hof n hn, he]
    rw [herase, List.length_erase_of_mem hn₀]
    have hpos := List.length_pos_of_mem hn₀
    omega

theorem virtual_filter {x : String} (hw : t.ring.weight = s.ring.weight)
    (hlive : t.live = s.live.filter (·.ip ≠ x)) :
    t.virtual hash32 = (s.virtual hash32).filter (·.ip ≠ x) := by
  simp only [virtual, hw, hlive]
  induction s.live with
  | nil => rfl
  | cons node live ih =>
    rw [List.flatMap_cons, List.filter_append, ← ih]
    by_cases hx : node.ip = x
    · have hnone : ((List.range s.ring.weight).map fun w => bare (vNode hash32 node w)).filter
          (·.ip ≠ x) = [] := by
        simp [List.filter_eq_nil_iff, bare, vNode, hx]
      rw [List.filter_cons_of_neg (by simpa using hx), hnone, List.nil_append]
    · have hall : ((List.range s.ring.weight).map fun w => bare (vNode hash32 node w)).filter
          (·.ip ≠ x) = (List.range s.ring.weight).map fun w => bare (vNode hash32 node w) := by
        simp [List.filter_eq_self, bare, vNode, hx]
      rw [List.filter_cons_of_pos (by simpa using hx), hall, List.flatMap_cons]

theorem map_bare_filter (nodes : List Node) (x : String) :
    (nodes.filter (·.ip ≠ x)).map bare = (nodes.map bare).filter (·.ip ≠ x) := by
  rw [List.filter_map]
  rfl

theorem Tracked.leave (h : Tracked hash32 s) {node : Node} (hd : s.Delivered (.leave node))
    (ha : s.Apart (.leave node)) : ∃ t, s.handle hash32 self (.leave node) = some t ∧ Tracked hash32 t := by
  obtain ⟨n₀, hn₀, hname, hip⟩ := hd
  obtain ⟨hfilter, hlen⟩ := live_filter h.names h.ips hn₀ hname hip
  obtain ⟨first, hfirst, hcolon⟩ := ha
  rw [Option.mem_def, ← List.head?_filter] at hfirst
  obtain ⟨rest, hcons⟩ := List.head?_eq_some_iff.mp hfirst
  let removed := (s.ring.nodes.filter (·.ip = node.ip)).map ({ · with state := nodeStateDead })
  have hremoved : (s.ring.onRemove node).2 = some removed := by
    simp [onRemove, removed, hcons, hcolon]
  have hx : ∀ n ∈ removed, n.ip = node.ip := by
    intro n hn
    obtain ⟨n', hn', rfl⟩ := List.mem_map.mp hn
    simpa using (List.mem_filter.mp hn').2
  have hne : removed ≠ [] := by simp [removed, hcons]
  have hvirtual : (⟨(s.ring.onRemove node).1, s.backRing.balanceOnNodeRemoved removed,
      s.live.filter (·.ip ≠ node.ip)⟩ : MemberRings).virtual hash32 =
      (s.virtual hash32).filter (·.ip ≠ node.ip) := virtual_filter rfl rfl
  refine ⟨⟨(s.ring.onRemove node).1, s.backRing.balanceOnNodeRemoved removed,
    s.live.filter (·.name ≠ node.name)⟩, by simp [handle, hremoved], ?_⟩
  rw [hfilter] at hlen ⊢
  refine .of (onRemove_sorted s.ring node) ?_ ?_ ?_ ?_ h.weight ?_ ?_ (sortNodes_sorted _)
  · rw [hvirtual]
    refine ((sortNodes_perm _).map bare).trans ?_
    rw [map_bare_filter]
    exact h.nodes.filter _
  · rw [hvirtual]
    refine ((balanceOnNodeRemoved_perm hne hx).map bare).trans ?_
    rw [map_bare_filter]
    exact h.back.filter _
  · exact h.names.sublist (List.filter_sublist.map _)
  · exact h.ips.sublist (List.filter_sublist.map _)
  · simp only [onRemove, h.ringNum]
    omega
  · simp only [balanceOnNodeRemoved, h.backNum]
    omega

theorem Tracked.update (h : Tracked hash32 s) (node : Node) :
    ∃ t, s.handle hash32 self (.update node) = some t ∧ Tracked hash32 t := by
  let f : Node → Node := fun n => if hasPrefix n.name node.name then { n with mt := node.mt } else n
  have htoken : ∀ n, (f n).ringToken = n.ringToken := by
    intro n
    dsimp only [f]
    split <;> rfl
  have hbare : ∀ n, bare (f n) = bare n := by
    intro n
    dsimp only [f]
    split <;> rfl
  refine ⟨_, rfl, .of ?_ ?_ h.back h.names h.ips h.weight h.ringNum h.backNum h.backSorted⟩
  · refine List.pairwise_map.mpr (h.sorted.imp fun {a b} hab => ?_)
    exact (htoken a).symm ▸ (htoken b).symm ▸ hab
  · refine (List.Perm.of_eq ?_).trans h.nodes
    exact (List.map_map ..).trans (List.map_congr_left fun n _ => hbare n)

/-- Every event that memberlist delivers and that meets the condition is handled, and the
rings stand for the live members again. -/
theorem Tracked.handle (h : Tracked hash32 s) {e : MemberEvent} (hd : s.Delivered e) (ha : s.Apart e) :
    ∃ t, s.handle hash32 self e = some t ∧ Tracked hash32 t := by
  cases e with
  | join node => exact h.join hd ha
  | leave node => exact h.leave hd ha
  | update node => exact h.update node

theorem Tracked.after (h : Tracked hash32 s) {e : MemberEvent} (hd : s.Delivered e) (ha : s.Apart e)
    (hs : s.handle hash32 self e = some t) : Tracked hash32 t := by
  obtain ⟨t', ht', htracked⟩ : ∃ t', s.handle hash32 self e = some t' ∧ Tracked hash32 t' := h.handle hd ha
  exact Option.some.inj (ht'.symm.trans hs) ▸ htracked

theorem step_eq_handle {e : MemberEvent} (h : Stays self e) :
    s.step hash32 self e = s.handle hash32 self e := by
  cases e with
  | leave node => exact if_pos h
  | join node | update node => rfl

end MemberRings

end Tarantula
