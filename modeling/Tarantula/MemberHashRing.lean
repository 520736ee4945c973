import Mathlib.Data.List.Sort
import Tarantula.ByteBuffer
import Tarantula.RingLookup

/-! The members of the cluster on the hash ring. A member stands on the ring with `weight`
virtual nodes; a postoffice keeps a second ring, the back ring, from which it computes the
ranges of tokens that a new member takes over from it. -/

namespace Tarantula

/-- `NODE_WEIGHT` and `NODE_STATE_DEAD` -/
def nodeWeight : Nat := 7
def nodeStateDead : Int := 3

def hasPrefix (s p : String) : Bool := p.toList.isPrefixOf s.toList

theorem hasPrefix_append (name rest : String) : hasPrefix (name ++ rest) name = true := by
  unfold hasPrefix
  rw [String.toList_append, List.isPrefixOf_iff_prefix]
  exact List.prefix_append _ _

def utf8 (s : String) : Bytes := s.toUTF8.data.toList

/-- `slices.SortFunc` by token. The order it leaves equal tokens in is not specified. -/
def sortNodes (nodes : List Node) : List Node :=
  nodes.insertionSort (fun n₁ n₂ => n₁.ringToken ≤ n₂.ringToken)

structure MemberHashRing extends NodeRing where
  weight : Nat
  deriving DecidableEq, Repr

namespace MemberHashRing

section Hash

variable (hash32 : Bytes → UInt32)

def vNode (node : Node) (weight : Nat) : Node :=
  let name := node.name ++ "#" ++ toString weight
  ⟨name, hash32 (utf8 name), node.mt, node.ip, node.rpcEndpoint, node.state⟩

def onAdd (m : MemberHashRing) (node : Node) : MemberHashRing × List Node :=
  let added := (List.range m.weight).map (vNode hash32 node)
  ({ m with
     nodes := sortNodes (m.nodes ++ added)
     nodeNum := m.nodeNum + 1 }, added)

end Hash

/-- The ring is changed first; then `none` where the source indexes no removed node, or a
second part of a Meta without a colon. -/
def onRemove (m : MemberHashRing) (node : Node) : MemberHashRing × Option (List Node) :=
  let removed := (m.nodes.filter (·.ip = node.ip)).map ({ · with state := nodeStateDead })
  ({ m with
     nodes := sortNodes (m.nodes.filter (·.ip ≠ node.ip))
     nodeNum := m.nodeNum - 1 },
   match removed with
   | [] => none
   | first :: _ => if ':' ∈ first.mt.toList then some removed else none)

def onUpdate (m : MemberHashRing) (node : Node) : MemberHashRing :=
  { m with nodes := m.nodes.map fun n => if hasPrefix n.name node.name then { n with mt := node.mt } else n }

end MemberHashRing

/-- The tokens from `lo` up to `hi`, without `hi`; the source has `From` and `To`. -/
structure RingRange where
  lo : UInt32
  hi : UInt32
  deriving DecidableEq, Repr

structure RingSync where
  remote : String
  ranges : List RingRange
  deriving DecidableEq, Repr

/-- `self` is the name of the local member. -/
def localNode (self : String) (n : Node) : Bool := hasPrefix n.name self

namespace NodeRing

/-- The loop of `balanceOnNodeAdded`: each new node is put on the ring after its range has
been read from it. `own` tells the nodes of this member; `none` where the ring is empty. -/
def announceBy (own : Node → Bool) :
    List Node → NodeRing → RingSync → Option (NodeRing × RingSync)
  | [], m, sync => some (m, sync)
  | n :: added, m, sync =>
    let m' := { m with nodes := sortNodes (m.nodes ++ [n]) }
    if own n then announceBy own added m' sync
    else
      match m.rangeOfRing n.ringToken with
      | none => none
      | some (before, owner) =>
        announceBy own added m'
          (if own owner then ⟨owner.rpcEndpoint, sync.ranges ++ [⟨before.ringToken, n.ringToken⟩]⟩
          else sync)

/-- The code takes `localNode` for the test. -/
def announce (self : String) : List Node → NodeRing → RingSync → Option (NodeRing × RingSync) :=
  announceBy (localNode self)

/-- The ranges are sent to the endpoint of the new nodes, where there are any. -/
def notice : List Node → RingSync → Option (String × RingSync)
  | first :: _, ⟨remote, r :: ranges⟩ => some (first.rpcEndpoint, ⟨remote, r :: ranges⟩)
  | _, _ => none

/-- The back ring after the new nodes came, and the ranges that are sent out. -/
def balanceOnNodeAdded (self : String) (backRing : NodeRing) (added : List Node) :
    Option (NodeRing × Option (String × RingSync)) :=
  if backRing.nodeNum = 0 then
    some (⟨sortNodes (backRing.nodes ++ added), backRing.nodeNum + 1⟩, none)
  else
    let added := sortNodes added
    (announce self added backRing ⟨"", []⟩).map fun (m, sync) =>
      ({ m with nodeNum := m.nodeNum + 1 }, notice added sync)

def balanceOnNodeRemoved (backRing : NodeRing) (removed : List Node) : NodeRing :=
  ⟨sortNodes (removed.foldl (fun nodes n => nodes.filter (·.ip ≠ n.ip)) backRing.nodes),
    backRing.nodeNum - 1⟩

end NodeRing

section SortNodes

variable {nodes l : List Node}

instance : Std.Total (fun n₁ n₂ : Node => n₁.ringToken ≤ n₂.ringToken) := ⟨fun _ _ => le_total _ _⟩

instance : IsTrans Node (fun n₁ n₂ => n₁.ringToken ≤ n₂.ringToken) := ⟨fun _ _ _ => le_trans⟩

theorem sortNodes_perm (nodes : List Node) : (sortNodes nodes).Perm nodes :=
  List.perm_insertionSort _ _

theorem sortNodes_sorted (nodes : List Node) : NodeRing.Sorted (sortNodes nodes) :=
  List.pairwise_insertionSort _ _

@[simp] theorem mem_sortNodes {n : Node} : n ∈ sortNodes nodes ↔ n ∈ nodes :=
  (sortNodes_perm nodes).mem_iff

end SortNodes

namespace NodeRing

variable {m : NodeRing}

theorem exists_rangeOfRing (hne : m.nodes ≠ []) (t : UInt32) : ∃ r, m.rangeOfRing t = some r := by
  unfold rangeOfRing ownerOf
  rw [List.head?_eq_some_head hne, List.getLast?_eq_some_getLast hne]
  dsimp only
  split <;> exact ⟨_, rfl⟩

theorem announceBy_perm (own : Node → Bool) (added : List Node) (sync : RingSync) (hne : m.nodes ≠ []) :
    ∃ after sync', announceBy own added m sync = some (after, sync') ∧
      after.nodes.Perm (added ++ m.nodes) ∧ after.nodeNum = m.nodeNum ∧
      (Sorted m.nodes → Sorted after.nodes) := by
  induction added generalizing m sync with
  | nil => exact ⟨m, sync, rfl, .rfl, rfl, id⟩
  | cons n added ih =>
    have hperm : (sortNodes (m.nodes ++ [n])).Perm (n :: m.nodes) :=
      (sortNodes_perm _).trans (List.perm_append_singleton n m.nodes)
    have hne' : sortNodes (m.nodes ++ [n]) ≠ [] := fun h => by simpa [h] using hperm.length_eq
    obtain ⟨⟨p, o⟩, hrange⟩ := exists_rangeOfRing hne n.ringToken
    rw [announceBy, hrange]
    have hstep : ∀ sync, ∃ after sync', announceBy own added
        { m with nodes := sortNodes (m.nodes ++ [n]) } sync = some (after, sync') ∧
        after.nodes.Perm (n :: added ++ m.nodes) ∧ after.nodeNum = m.nodeNum ∧
        (Sorted m.nodes → Sorted after.nodes) := by
      intro sync
      obtain ⟨after, sync', hrun, hp, hnum, hs⟩ :=
        ih (m := { m with nodes := sortNodes (m.nodes ++ [n]) }) sync hne'
      exact ⟨after, sync', hrun, hp.trans ((hperm.append_left added).trans List.perm_middle), hnum,
        fun _ => hs (sortNodes_sorted _)⟩
    split <;> exact hstep _

theorem balanceOnNodeAdded_perm (self : String) (added : List Node)
    (h : m.nodeNum ≠ 0 → m.nodes ≠ []) :
    ∃ after sent, m.balanceOnNodeAdded self added = some (after, sent) ∧
      after.nodes.Perm (added ++ m.nodes) ∧ after.nodeNum = m.nodeNum + 1 ∧
      (Sorted m.nodes → Sorted after.nodes) := by
  unfold balanceOnNodeAdded
  split
  · exact ⟨_, _, rfl, (sortNodes_perm _).trans List.perm_append_comm, rfl, fun _ => sortNodes_sorted _⟩
  · next hnum =>
    obtain ⟨after, sync, hrun, hp, hn, hs⟩ :=
      announceBy_perm (localNode self) (sortNodes added) ⟨"", []⟩ (h hnum)
    dsimp only
    rw [announce, hrun]
    exact ⟨_, _, rfl, hp.trans ((sortNodes_perm added).append_right _), by rw [← hn], hs⟩

theorem balanceOnNodeRemoved_perm {removed : List Node} {x : String} (hne : removed ≠ [])
    (hx : ∀ n ∈ removed, n.ip = x) :
    (m.balanceOnNodeRemoved removed).nodes.Perm (m.nodes.filter (·.ip ≠ x)) := by
  have hfold : ∀ l : List Node, removed.foldl (fun nodes n => nodes.filter (·.ip ≠ n.ip))
      (l.filter (·.ip ≠ x)) = l.filter (·.ip ≠ x) := by
    clear hne
    intro l
    induction removed with
    | nil => rfl
    | cons n removed ih =>
      rw [List.foldl_cons, hx n List.mem_cons_self, List.filter_filter]
      simp only [Bool.and_self]
      exact ih fun n' hn' => hx n' (List.mem_cons_of_mem _ hn')
  refine (sortNodes_perm _).trans (.of_eq ?_)
  cases removed with
  | nil => exact absurd rfl hne
  | cons n removed =>
    have hself := hfold m.nodes
    rw [List.foldl_cons, hx n List.mem_cons_self, List.filter_filter] at hself
    rw [List.foldl_cons, hx n List.mem_cons_self]
    simpa only [Bool.and_self] using hself

end NodeRing

end Tarantula
