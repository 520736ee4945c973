import Tarantula.MemberHashRing
import Tarantula.Murmur3

/-! A member that comes or goes changes the order in which addresses are met only by its
own address, so keys move only to the new member, or from the old one to the replica that
was next. -/

namespace Tarantula

namespace NodeRing

def Strict (nodes : List Node) : Prop := nodes.Pairwise (·.ringToken < ·.ringToken)

theorem Strict.sorted {nodes : List Node} (h : Strict nodes) : Sorted nodes := h.imp le_of_lt

theorem Sorted.strict {nodes : List Node} (h : Sorted nodes)
    (hd : (nodes.map (·.ringToken)).Nodup) : Strict nodes := by
  rw [List.Nodup, List.pairwise_map] at hd
  exact h.imp₂ (fun _ _ hle hne => lt_of_le_of_ne hle hne) hd

theorem Strict.tokens {nodes : List Node} (h : Strict nodes) : (nodes.map (·.ringToken)).Nodup :=
  List.pairwise_map.mpr (h.imp ne_of_lt)

theorem Strict.eq_of_perm {nodes l : List Node} (h : Strict nodes) (hl : Strict l)
    (hp : nodes.Perm l) : nodes = l :=
  hp.eq_of_pairwise (fun _ _ _ _ hab hba => absurd hba (not_lt_of_gt hab)) h hl

def ownerIp (m : NodeRing) (t : UInt32) : Option String :=
  (m.ownerOf t).map fun ix => (m.nodes.getD ix default).ip

variable {m : NodeRing} {nodes : List Node} {t : UInt32}

theorem keyRing_head {replica : Nat} {ring : List Node} (h : m.keyRing t replica = some ring) :
    ∃ p rest, ring = p :: rest ∧ m.ownerIp t = some p.ip := by
  unfold keyRing at h
  split at h
  · cases h
  · next ix hix =>
    have hip : m.ownerIp t = some (m.nodes.getD ix default).ip := by rw [ownerIp, hix, Option.map_some]
    dsimp only at h
    split at h
    · cases h
      exact ⟨_, [], rfl, hip⟩
    · split at h
      · cases h
      · obtain ⟨_, more, he⟩ := walk_ips h (by simp)
        exact ⟨_, more, he, hip⟩

theorem met_filter (nodes : List Node) (t : UInt32) (x : String) :
    met (nodes.filter (·.ip ≠ x)) t = (met nodes t).filter (· ≠ x) := by
  rw [met, met, around, ← filter_clockwise, ← eraseDups_filter, List.filter_map]
  rfl

theorem head?_full (hs : Sorted m.nodes) (t : UInt32) : (m.full t).head? = m.ownerIp t := by
  by_cases hne : m.nodes = []
  · simp [full, ownerIp, ownerOf, hne]
  · obtain ⟨ix, hix, hlt, _⟩ := exists_ownerOf t hs hne
    rw [full, ownerIp, hix]
    dsimp only
    rw [List.drop_eq_getElem_cons hlt, List.cons_append, List.map_cons, List.eraseDups_cons,
      List.head?_cons, Option.map_some, List.getD_eq_getElem _ _ hlt]

structure WellFormed (m : NodeRing) : Prop where
  sorted : Sorted m.nodes
  tokens : (m.nodes.map (·.ringToken)).Nodup
  num : m.nodeNum = hosts m.nodes

end NodeRing

namespace MemberHashRing

open NodeRing

variable {m : MemberHashRing} {node : Node} {t : UInt32}

theorem onAdd_sorted (hash32 : Bytes → UInt32) (m : MemberHashRing) (node : Node) :
    Sorted (m.onAdd hash32 node).1.nodes := sortNodes_sorted _

theorem onRemove_sorted (m : MemberHashRing) (node : Node) : Sorted (m.onRemove node).1.nodes :=
  sortNodes_sorted _

theorem full_onRemove (hs : Sorted m.nodes) (node : Node) (t : UInt32) :
    (m.onRemove node).1.full t = (m.full t).filter (· ≠ node.ip) := by
  have hsorted : Sorted (m.nodes.filter (·.ip ≠ node.ip)) := List.Pairwise.filter _ hs
  rw [full_eq_met (onRemove_sorted m node), full_eq_met hs, ← met_filter]
  exact congrArg (met · t) hsorted.insertionSort_eq

theorem full_onAdd {hash32 : Bytes → UInt32} (hs : Strict m.nodes)
    (hx : node.ip ∉ m.nodes.map (·.ip))
    (hd : ((m.onAdd hash32 node).1.nodes.map (·.ringToken)).Nodup) (t : UInt32) :
    ((m.onAdd hash32 node).1.full t).filter (· ≠ node.ip) = m.full t := by
  -- what is left without the new address is the old ring
  have hold : (m.onAdd hash32 node).1.nodes.filter (·.ip ≠ node.ip) = m.nodes := by
    have hs' : Strict (m.onAdd hash32 node).1.nodes := (sortNodes_sorted _).strict hd
    have hperm : ((m.onAdd hash32 node).1.nodes.filter (·.ip ≠ node.ip)).Perm m.nodes := by
      refine ((sortNodes_perm _).filter _).trans ?_
      have hnew : ((List.range m.weight).map (vNode hash32 node)).filter (·.ip ≠ node.ip) = [] := by
        simp [List.filter_eq_nil_iff, vNode]
      have hkeep : m.nodes.filter (·.ip ≠ node.ip) = m.nodes := by
        rw [List.filter_eq_self]
        intro n hn
        simpa using fun he : n.ip = node.ip => hx (he ▸ List.mem_map_of_mem hn)
      rw [List.filter_append, hnew, hkeep, List.append_nil]
    exact Strict.eq_of_perm (List.Pairwise.filter _ hs') hs hperm
  rw [full_eq_met (onAdd_sorted hash32 m node), full_eq_met hs.sorted, ← met_filter]
  exact congrArg (met · t) hold

/-- The ring of the members `members`, as the events of their joining leave it. -/
def ofMembers (hash32 : Bytes → UInt32) (members : List Node) : MemberHashRing :=
  members.foldl (fun m node => (m.onAdd hash32 node).1) ⟨⟨[], 0⟩, nodeWeight⟩

/-- `keyRing` gives the first addresses that are met, and a member that comes or goes
changes them by its own address only. So an add changes an owner only to the new member,
and a removal changes it only where it was the removed one, to the next replica. -/
theorem consistent_hashing (m : MemberHashRing) (hm : m.WellFormed) (t : UInt32) :
    (m.nodes ≠ [] → ∀ replica, 0 < replica → ∃ ring, m.keyRing t replica = some ring ∧
      ring.map (·.ip) = (m.full t).take (min m.nodeNum.toNat replica)) ∧
    (∀ hash32 node, node.ip ∉ m.nodes.map (·.ip) →
      ((m.onAdd hash32 node).1.nodes.map (·.ringToken)).Nodup →
      ((m.onAdd hash32 node).1.full t).filter (· ≠ node.ip) = m.full t ∧
      ((m.onAdd hash32 node).1.ownerIp t = m.ownerIp t ∨
        (m.onAdd hash32 node).1.ownerIp t = some node.ip)) ∧
    ∀ node, node.ip ∈ m.nodes.map (·.ip) →
      (m.onRemove node).1.full t = (m.full t).filter (· ≠ node.ip) ∧
      (m.ownerIp t ≠ some node.ip → (m.onRemove node).1.ownerIp t = m.ownerIp t) ∧
      (m.ownerIp t = some node.ip → (m.onRemove node).1.ownerIp t = (m.full t)[1]?) := by
  refine ⟨fun hne replica hr => keyRing_full hm.sorted hne hm.num hr t, ?_, ?_⟩
  · intro hash32 node hx hd
    have hfull := full_onAdd (hm.sorted.strict hm.tokens) hx hd t
    refine ⟨hfull, ?_⟩
    rw [← head?_full (onAdd_sorted hash32 m node), ← head?_full hm.sorted, ← hfull]
    by_cases hne : ((m.onAdd hash32 node).1.full t).head? = some node.ip
    · exact .inr hne
    · exact .inl (head?_filter_of_ne hne).symm
  · intro node hx
    have hfull := full_onRemove hm.sorted node t
    rw [← head?_full (onRemove_sorted m node), hfull, ← head?_full hm.sorted]
    refine ⟨rfl, head?_filter_of_ne, head?_filter_of_eq ?_⟩
    rw [full_eq_met hm.sorted]
    exact nodup_eraseDups _

instance (nodes : List Node) : Decidable (Sorted nodes) :=
  inferInstanceAs (Decidable (nodes.Pairwise (fun n₁ n₂ => n₁.ringToken ≤ n₂.ringToken)))

instance (m : NodeRing) : Decidable m.WellFormed :=
  decidable_of_iff (Sorted m.nodes ∧ (m.nodes.map (·.ringToken)).Nodup ∧ m.nodeNum = hosts m.nodes)
    ⟨fun h => ⟨h.1, h.2.1, h.2.2⟩, fun h => ⟨h.sorted, h.tokens, h.num⟩⟩

def sampleMember (name ip : String) : Node := ⟨name, 0, "tag:" ++ name, ip ++ ":7946", ip ++ ":7001", 0⟩

def nodeA : Node := sampleMember "node-a" "10.0.0.1"
def nodeB : Node := sampleMember "node-b" "10.0.0.2"
def nodeC : Node := sampleMember "node-c" "10.0.0.3"

def sampleRing : MemberHashRing := ofMembers Murmur3.sum32 [nodeA, nodeB]

theorem sampleRing_wellFormed : sampleRing.WellFormed := by decide +kernel

theorem sampleRing_full : sampleRing.full 1050000000 = [nodeA.ip, nodeB.ip] := by decide +kernel

/-- Three replicas are asked of a ring of two members; then a third one comes between
them, and the first one goes. -/
theorem consistent_hashing_sample :
    (∃ ring, sampleRing.keyRing 1050000000 3 = some ring ∧
      ring.map (·.ip) = [nodeA.ip, nodeB.ip]) ∧
    (((sampleRing.onAdd Murmur3.sum32 nodeC).1.full 1050000000).filter (· ≠ nodeC.ip) =
      [nodeA.ip, nodeB.ip]) ∧
    (sampleRing.onRemove nodeA).1.ownerIp 1050000000 = some nodeB.ip := by
  obtain ⟨hkey, hadd, hremove⟩ := consistent_hashing sampleRing sampleRing_wellFormed 1050000000
  obtain ⟨ring, hring, hips⟩ := hkey (by decide +kernel) 3 (by decide)
  refine ⟨⟨ring, hring, hips.trans (by decide +kernel)⟩, ?_, ?_⟩
  · exact (hadd Murmur3.sum32 nodeC (by decide +kernel) (by decide +kernel)).1.trans sampleRing_full
  · rw [(hremove nodeA (by decide +kernel)).2.2 (by decide +kernel), sampleRing_full]
    rfl

end MemberHashRing

end Tarantula
