/-! The hash ring: virtual nodes sorted by token, the owner of a token and the replicas
of a key. -/

namespace Tarantula

/-- `NODE_EVENT_BUFFER_SIZE`, of the channels that go to the goroutine of the ring. -/
def nodeEventBufferSize : Nat := 256

structure Node where
  name : String
  ringToken : UInt32
  mt : String
  ip : String
  rpcEndpoint : String
  state : Int
  deriving DecidableEq, Repr, Inhabited

/-- A node that is known by its endpoint. -/
def Node.ofEndpoint (endpoint : String) : Node := ⟨endpoint, 0, "", endpoint, endpoint, 0⟩

/-- `nodeNum` counts the hosts. -/
structure NodeRing where
  nodes : List Node
  nodeNum : Int
  deriving DecidableEq, Repr

namespace NodeRing

/-- The loop of `ownerOf`, which keeps the half-open range `[l, r)` where the source keeps
`[l, r - 1]`. The fuel bounds the number of halvings. -/
def search (nodes : List Node) (t : UInt32) : Nat → Nat → Nat → Option Nat → Option Nat
  | 0, _, _, ix => ix
  | fuel + 1, l, r, ix =>
    if l < r then
      let md := l + (r - 1 - l) / 2
      if t < (nodes.getD md default).ringToken then search nodes t fuel l md (some md)
      else search nodes t fuel (md + 1) r ix
    else ix

/-- `none` where the source indexes an empty ring. -/
def ownerOf (m : NodeRing) (t : UInt32) : Option Nat :=
  match m.nodes.head?, m.nodes.getLast? with
  | some first, some last =>
    if last.ringToken ≤ t ∨ t < first.ringToken then some 0
    else some ((search m.nodes t m.nodes.length 0 m.nodes.length none).getD 0)
  | _, _ => none

/-- The loop of `keyRing`: from position `ix` on, the nodes of addresses not met yet. A
whole round without the last one would be repeated for ever, so the fuel is one round. -/
def walk (nodes : List Node) : Nat → Nat → Nat → List Node → Option (List Node)
  | _, _, 0, syncNodes => some syncNodes
  | 0, _, _ + 1, _ => none
  | fuel + 1, ix, syncNum + 1, syncNodes =>
    let ix := if ix = nodes.length then 0 else ix
    let p := nodes.getD ix default
    if syncNodes.any (fun nd => p.ip = nd.ip) then walk nodes fuel (ix + 1) (syncNum + 1) syncNodes
    else walk nodes fuel (ix + 1) syncNum (syncNodes ++ [p])

/-- `none` where the source panics or does not return. -/
def keyRing (m : NodeRing) (t : UInt32) (replica : Nat) : Option (List Node) :=
  match m.ownerOf t with
  | none => none
  | some ix =>
    let owner := m.nodes.getD ix default
    if replica = 0 ∨ m.nodeNum = 1 then some [owner]
    else
      let syncNum := min m.nodeNum replica - 1
      if syncNum < 0 then none
      else walk m.nodes m.nodes.length (ix + 1) syncNum.toNat [owner]

def rangeOfRing (m : NodeRing) (t : UInt32) : Option (Node × Node) :=
  (m.ownerOf t).map fun ix =>
    let px := if ix = 0 then m.nodes.length - 1 else ix - 1
    (m.nodes.getD px default, m.nodes.getD ix default)

theorem walk_ips {nodes : List Node} {fuel ix n : Nat} {acc ring : List Node}
    (h : walk nodes fuel ix n acc = some ring) (hacc : (acc.map (·.ip)).Nodup) :
    (ring.map (·.ip)).Nodup ∧ ∃ more, ring = acc ++ more := by
  induction fuel generalizing ix n acc with
  | zero =>
    cases n with
    | zero =>
      simp only [walk, Option.some.injEq] at h
      exact h ▸ ⟨hacc, [], by simp⟩
    | succ n => simp [walk] at h
  | succ fuel ih =>
    cases n with
    | zero =>
      simp only [walk, Option.some.injEq] at h
      exact h ▸ ⟨hacc, [], by simp⟩
    | succ n =>
      simp only [walk] at h
      generalize (if ix = nodes.length then 0 else ix) = i at h
      split at h
      · exact ih h hacc
      · next hnew =>
        simp only [List.any_eq_true, decide_eq_true_eq, not_exists, not_and] at hnew
        have hacc' : ((acc ++ [nodes.getD i default]).map (·.ip)).Nodup := by
          rw [List.map_append, List.nodup_append]
          refine ⟨hacc, by simp, fun a ha b hb he => ?_⟩
          obtain ⟨nd, hnd, rfl⟩ := List.mem_map.mp ha
          simp only [List.map_cons, List.map_nil, List.mem_singleton] at hb
          exact hnew nd hnd (hb.symm.trans he.symm)
        obtain ⟨hnd, more, he⟩ := ih h hacc'
        exact ⟨hnd, _ :: more, by rw [he, List.append_assoc]; rfl⟩

theorem keyRing_ips {m : NodeRing} {t : UInt32} {replica : Nat} {ring : List Node}
    (h : m.keyRing t replica = some ring) : (ring.map (·.ip)).Nodup ∧ ring ≠ [] := by
  unfold keyRing at h
  split at h
  · cases h
  · next ix hix =>
    dsimp only at h
    split at h
    · cases h
      simp
    · split at h
      · cases h
      · obtain ⟨hnd, more, he⟩ := walk_ips h (by simp)
        exact ⟨hnd, by simp [he]⟩

end NodeRing

end Tarantula
