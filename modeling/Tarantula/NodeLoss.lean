import Tarantula.JoinRanges
import Tarantula.Membership

/-! The records of a cluster while members come and go. A new member gets the records of
the ranges that are announced to it; a member that goes takes its store along, and nothing
is moved. -/

namespace Tarantula

/-- One store a member, by endpoint, and the records whose creation was acknowledged. -/
structure Cluster (ρ : Type) where
  rings : MemberRings
  stores : String → List ρ
  acked : List ρ

inductive ClusterEvent (ρ : Type)
  | create (r : ρ)
  | member (e : MemberEvent)

namespace Cluster

open NodeRing MemberHashRing MemberRings

variable {ρ : Type} (hash32 : Bytes → UInt32) (self : String) (token : ρ → UInt32)

def initial : Cluster ρ := ⟨.initial, fun _ => [], []⟩

/-- The member that is told ranges of tokens pulls the records from the sender. -/
def pull (stores : String → List ρ) : Option (String × RingSync) → String → List ρ
  | none => stores
  | some (target, sync) => Function.update stores target
      (stores target ++ (stores sync.remote).filter fun r => sync.ranges.any (·.covers (token r)))

def sentBy (rings : MemberRings) (name : String) (node : Node) : Option (String × RingSync) :=
  (rings.backRing.balanceOnNodeAdded name (rings.ring.onAdd hash32 node).2).bind (·.2)

def handoff (s : Cluster ρ) (node : Node) : String → List ρ :=
  s.rings.live.foldl (fun stores h => pull token stores (sentBy hash32 s.rings h.name node)) s.stores

def without (s : Cluster ρ) (name : String) (endpoint : String) : List ρ :=
  if endpoint ∈ (s.rings.live.filter (·.name = name)).map (·.rpcEndpoint) then [] else s.stores endpoint

/-- A create reaches all nodes of `keyRing`. `none` where the loop of the ring stops. -/
def step (s : Cluster ρ) : ClusterEvent ρ → Option (Cluster ρ)
  | .create r => (s.rings.ring.keyRing (token r) replicaMax).map fun nodes =>
      { s with
        stores := fun endpoint =>
          if endpoint ∈ nodes.map (·.rpcEndpoint) then s.stores endpoint ++ [r] else s.stores endpoint
        acked := s.acked ++ [r] }
  | .member e => (s.rings.handle hash32 self e).map fun rings =>
      { s with
        rings := rings
        stores := match e with
          | .join node => s.handoff hash32 token node
          | .leave node => s.without node.name
          | .update _ => s.stores }

def runGet [DecidableEq ρ] (s : Cluster ρ) (r : ρ) : Option Bool :=
  (s.rings.ring.keyRing (token r) replicaMax).bind fun nodes =>
    nodes.head?.map fun primary => decide (r ∈ s.stores primary.rpcEndpoint)

/-- Members are told apart by address, endpoint, tokens and name. -/
def Distinct (s : Cluster ρ) : ClusterEvent ρ → Prop
  | .create _ => True
  | .member e => s.rings.Delivered e ∧ s.rings.Apart e ∧
    match e with
    | .join node =>
      node.rpcEndpoint ∉ s.rings.live.map (·.rpcEndpoint) ∧
      ((s.rings.backRing.nodes ++ (s.rings.ring.onAdd hash32 node).2).map (·.ringToken)).Nodup ∧
      ∀ h ∈ s.rings.live, ∀ n ∈ s.rings.backRing.nodes ++ (s.rings.ring.onAdd hash32 node).2,
        localNode h.name n = true ↔ n.ip = h.ip
    | _ => True

/-- Where a member leaves that is the primary of a record, the second replica has it. -/
def Covered (s : Cluster ρ) : ClusterEvent ρ → Prop
  | .member (.leave node) => ∀ r ∈ s.acked, s.rings.ring.ownerIp (token r) = some node.ip →
      ∃ second ∈ (s.rings.ring.keyRing (token r) replicaMax).bind (·[1]?), r ∈ s.stores second.rpcEndpoint
  | _ => True

/-- Where a member leaves, another one has each record. -/
def Survives (s : Cluster ρ) : ClusterEvent ρ → Prop
  | .member (.leave node) => ∀ r ∈ s.acked, ∃ h ∈ s.rings.live, h.name ≠ node.name ∧
    r ∈ s.stores h.rpcEndpoint
  | _ => True

instance (s : Cluster ρ) (e : ClusterEvent ρ) : Decidable (s.Distinct hash32 e) := by
  unfold Distinct
  split
  · infer_instance
  · next e => induction e using MemberEvent.casesOn <;> infer_instance

instance [DecidableEq ρ] (s : Cluster ρ) (e : ClusterEvent ρ) : Decidable (s.Covered token e) := by
  unfold Covered
  split <;> infer_instance

instance [DecidableEq ρ] (s : Cluster ρ) (e : ClusterEvent ρ) : Decidable (s.Survives e) := by
  unfold Survives
  split <;> infer_instance

section Stores

variable {token} {stores : String → List ρ} {r : ρ} {endpoint : String}

theorem mem_pull {sent : Option (String × RingSync)} (h : r ∈ stores endpoint) :
    r ∈ pull token stores sent endpoint := by
  cases sent with
  | none => exact h
  | some sent =>
    obtain ⟨target, sync⟩ := sent
    by_cases he : endpoint = target
    · subst he
      simp [pull, h]
    · simpa [pull, he] using h

theorem mem_foldl_pull {ι : Type} {sent : ι → Option (String × RingSync)} {l : List ι}
    (h : r ∈ stores endpoint) :
    r ∈ l.foldl (fun stores i => pull token stores (sent i)) stores endpoint := by
  induction l generalizing stores with
  | nil => exact h
  | cons i l ih => exact ih (mem_pull h)

theorem mem_foldl_pull_target {ι : Type} {sent : ι → Option (String × RingSync)} {l : List ι} {i : ι}
    {target : String} {sync : RingSync} (hi : i ∈ l) (hsent : sent i = some (target, sync))
    (h : r ∈ stores sync.remote) (hcov : sync.ranges.any (·.covers (token r)) = true) :
    r ∈ l.foldl (fun stores i => pull token stores (sent i)) stores target := by
  induction l generalizing stores with
  | nil => cases hi
  | cons j l ih =>
    rw [List.foldl_cons]
    rcases List.mem_cons.mp hi with rfl | hi
    · refine mem_foldl_pull ?_
      rw [hsent]
      simp only [pull, Function.update_self, List.mem_append, List.mem_filter]
      exact .inr ⟨h, hcov⟩
    · exact ih hi (mem_pull h)

end Stores

/-- The invariant: both rings stand for the live members, and the owner of every
acknowledged record has it. -/
structure Served (s : Cluster ρ) : Prop where
  tracked : Tracked hash32 s.rings
  tokens : ((s.rings.virtual hash32).map (·.ringToken)).Nodup
  endpoints : (s.rings.live.map (·.rpcEndpoint)).Nodup
  held : ∀ r ∈ s.acked, ∃ h ∈ s.rings.live, s.rings.ring.ownerIp (token r) = some h.ip ∧
    r ∈ s.stores h.rpcEndpoint

section Rings

variable {hash32} {rings : MemberRings} {m m' : NodeRing} {t : UInt32}

theorem map_token_bare (nodes : List Node) :
    (nodes.map bare).map (·.ringToken) = nodes.map (·.ringToken) := by
  rw [List.map_map]
  rfl

theorem strict_of_virtual {nodes : List Node} (hs : Sorted nodes)
    (hp : (nodes.map bare).Perm (rings.virtual hash32))
    (hd : ((rings.virtual hash32).map (·.ringToken)).Nodup) : Strict nodes := by
  refine hs.strict ?_
  rw [← map_token_bare, (hp.map _).nodup_iff]
  exact hd

theorem ownerIp_eq_of_perm (hm : Strict m.nodes) (hm' : Strict m'.nodes)
    (hp : (m.nodes.map bare).Perm (m'.nodes.map bare)) (t : UInt32) : m.ownerIp t = m'.ownerIp t := by
  have hb : ∀ {nodes : List Node}, Strict nodes → Strict (nodes.map bare) :=
    fun h => List.pairwise_map.mpr h
  have howner : ∀ nodes : List Node, (owner (nodes.map bare) t).map (·.ip) = (owner nodes t).map (·.ip) := by
    intro nodes
    rw [owner, around, clockwise_map (f := bare) (fun _ => rfl), List.head?_map, Option.map_map]
    rfl
  rw [ownerIp_eq hm.sorted, ownerIp_eq hm'.sorted, ← howner m.nodes, ← howner m'.nodes,
    Strict.eq_of_perm (hb hm) (hb hm') hp]

theorem mem_live_of_mem {nodes : List Node} (hp : (nodes.map bare).Perm (rings.virtual hash32)) {n : Node}
    (hn : n ∈ nodes) : ∃ h ∈ rings.live, n.ip = h.ip ∧ n.rpcEndpoint = h.rpcEndpoint := by
  have hmem := hp.mem_iff.mp (List.mem_map_of_mem (f := bare) hn)
  obtain ⟨h, hh, hv⟩ := List.mem_flatMap.mp hmem
  obtain ⟨w, _, he⟩ := List.mem_map.mp hv
  exact ⟨h, hh, (congrArg Node.ip he).symm, (congrArg Node.rpcEndpoint he).symm⟩

theorem eq_of_ip (htracked : Tracked hash32 rings) {h h' : Node} (hh : h ∈ rings.live)
    (hh' : h' ∈ rings.live) (he : h.ip = h'.ip) : h = h' :=
  List.inj_on_of_nodup_map htracked.ips hh hh' he

end Rings

variable {hash32 self token} {s : Cluster ρ}

theorem Served.front (h : Served hash32 token s) : Strict s.rings.ring.nodes :=
  strict_of_virtual h.tracked.sorted h.tracked.nodes h.tokens

theorem Served.back (h : Served hash32 token s) : Strict s.rings.backRing.nodes :=
  strict_of_virtual h.tracked.backSorted h.tracked.back h.tokens

theorem Served.live_of_keyRing (h : Served hash32 token s) {t : UInt32} {nodes : List Node} {n : Node}
    (hk : s.rings.ring.keyRing t replicaMax = some nodes) (hn : n ∈ nodes) :
    ∃ l ∈ s.rings.live, n.ip = l.ip ∧ n.rpcEndpoint = l.rpcEndpoint :=
  mem_live_of_mem h.tracked.nodes (keyRing_mem h.tracked.sorted hk n hn)

theorem Served.initial : Served hash32 token (initial : Cluster ρ) where
  tracked := .initial
  tokens := .nil
  endpoints := .nil
  held := by simp [Cluster.initial]

theorem Served.create (h : Served hash32 token s) {r : ρ} {t : Cluster ρ}
    (hs : s.step hash32 self token (.create r) = some t) : Served hash32 token t := by
  obtain ⟨nodes, hk, rfl⟩ := Option.map_eq_some_iff.mp hs
  refine ⟨h.tracked, h.tokens, h.endpoints, fun q hq => ?_⟩
  rcases List.mem_append.mp hq with hq | hq
  · obtain ⟨l, hl, hown, hmem⟩ := h.held q hq
    refine ⟨l, hl, hown, ?_⟩
    dsimp only
    split
    · exact List.mem_append_left _ hmem
    · exact hmem
  · obtain rfl := List.mem_singleton.mp hq
    obtain ⟨p, rest, rfl, hown⟩ := keyRing_head hk
    obtain ⟨l, hl, hip, hend⟩ := h.live_of_keyRing hk List.mem_cons_self
    refine ⟨l, hl, hip ▸ hown, ?_⟩
    dsimp only
    rw [if_pos (by simp [hend])]
    exact List.mem_append_right _ List.mem_cons_self

theorem onAdd_added {m : MemberHashRing} {node n : Node} (hn : n ∈ (m.onAdd hash32 node).2) :
    n.ip = node.ip ∧ n.rpcEndpoint = node.rpcEndpoint := by
  obtain ⟨w, _, rfl⟩ := List.mem_map.mp hn
  exact ⟨rfl, rfl⟩

/-- A record stays with its owner, or the owner announces it to the new member. -/
theorem Served.moves (h : Served hash32 token s) {node l : Node} {r : ρ} {rings : MemberRings}
    (hok : s.Distinct hash32 (.member (.join node))) (hl : l ∈ s.rings.live)
    (hown : s.rings.ring.ownerIp (token r) = some l.ip) (hmem : r ∈ s.stores l.rpcEndpoint)
    (hfront : Strict rings.ring.nodes)
    (hnodes : (rings.ring.nodes.map bare).Perm
      (s.rings.virtual hash32 ++ (s.rings.ring.onAdd hash32 node).2.map bare)) :
    rings.ring.ownerIp (token r) = some l.ip ∨
      rings.ring.ownerIp (token r) = some node.ip ∧ r ∈ s.handoff hash32 token node node.rpcEndpoint := by
  obtain ⟨_, hapart, hend, htok, hnames⟩ := hok
  have hfar : ∀ n ∈ (s.rings.ring.onAdd hash32 node).2, localNode l.name n = false := by
    intro n hn
    rw [Bool.eq_false_iff, Ne, hnames l hl n (List.mem_append_right _ hn), (onAdd_added hn).1]
    exact fun he => hapart (he ▸ List.mem_map_of_mem hl)
  rw [ownerIp_eq_of_perm h.front h.back (h.tracked.nodes.trans h.tracked.back.symm),
    ownerIp_eq h.tracked.backSorted] at hown
  obtain ⟨o, ho, hoip⟩ := Option.map_eq_some_iff.mp hown
  have hne : s.rings.backRing.nodes ≠ [] := List.ne_nil_of_mem (mem_of_owner ho)
  have hnum : s.rings.backRing.nodeNum ≠ 0 := by
    have hpos := List.length_pos_of_mem hl
    rw [h.tracked.backNum]
    omega
  obtain ⟨after, sent, hbal, hsafter, hpafter, _, hmoves⟩ :=
    balanceOnNodeAdded_moves hne h.back hnum htok hfar
  obtain ⟨o', ho', hwhere, hcount⟩ := hmoves (token r) o ho
  have hnow : rings.ring.ownerIp (token r) = some o'.ip := by
    have hperm : (rings.ring.nodes.map bare).Perm (after.nodes.map bare) := by
      refine hnodes.trans (List.perm_append_comm.trans ?_)
      refine ((h.tracked.back.symm.append_left _).trans ?_).trans (hpafter.map bare).symm
      rw [List.map_append]
    rw [ownerIp_eq_of_perm hfront hsafter hperm, ownerIp_eq hsafter.sorted, ho', Option.map_some]
  rcases hwhere with rfl | hnew
  · exact .inl (hnow.trans (by rw [hoip]))
  · refine .inr ⟨hnow.trans (by rw [(onAdd_added hnew).1]), ?_⟩
    have homem := mem_of_owner ho
    have hmoved : o' ≠ o := by
      rintro rfl
      rw [(onAdd_added hnew).1] at hoip
      exact hapart (hoip ▸ List.mem_map_of_mem hl)
    rw [if_pos ⟨(hnames l hl o (List.mem_append_left _ homem)).mpr hoip, hmoved⟩] at hcount
    obtain ⟨range, hrange, hcov⟩ := List.countP_pos_iff.mp (hcount ▸ Nat.one_pos)
    have hendpoint : ∀ n ∈ s.rings.backRing.nodes ++ (s.rings.ring.onAdd hash32 node).2,
        localNode l.name n = true → n.rpcEndpoint = l.rpcEndpoint := by
      intro n hn hlocal
      rcases List.mem_append.mp hn with hn' | hn'
      · obtain ⟨l', hl', hip, hend'⟩ := mem_live_of_mem h.tracked.back hn'
        have hsame := eq_of_ip h.tracked hl' hl (hip.symm.trans ((hnames l hl n hn).mp hlocal))
        rw [hend', hsame]
      · rw [hfar n hn'] at hlocal
        cases hlocal
    cases sent with
    | none => simp [announced] at hrange
    | some sent =>
      obtain ⟨target, sync⟩ := sent
      obtain ⟨rfl, hremote⟩ := balanceOnNodeAdded_sent h.tracked.backSorted hbal hendpoint
        (fun n hn => (onAdd_added hn).2)
      refine mem_foldl_pull_target hl (by rw [sentBy, hbal]; rfl) (hremote ▸ hmem) ?_
      exact List.any_eq_true.mpr ⟨range, hrange, hcov⟩

theorem Served.join (h : Served hash32 token s) {node : Node} {t : Cluster ρ}
    (hok : s.Distinct hash32 (.member (.join node)))
    (hs : s.step hash32 self token (.member (.join node)) = some t) : Served hash32 token t := by
  obtain ⟨rings, hrings, rfl⟩ := Option.map_eq_some_iff.mp hs
  have htracked := h.tracked.after hok.1 hok.2.1 hrings
  obtain ⟨hring, hlive⟩ := handle_join hrings
  have hvirtual : rings.virtual hash32 = s.rings.virtual hash32 ++
    (s.rings.ring.onAdd hash32 node).2.map bare :=
    virtual_join (by rw [hring]; rfl) hlive
  have htokens : ((rings.virtual hash32).map (·.ringToken)).Nodup := by
    have htok := hok.2.2.2.1
    rw [← map_token_bare, List.map_append] at htok
    rw [hvirtual]
    exact ((h.tracked.back.append_right _).map _).nodup_iff.mp htok
  refine ⟨htracked, htokens, ?_, fun r hr => ?_⟩
  · simpa [hlive, List.nodup_append] using
      ⟨h.endpoints, fun a ha he => hok.2.2.1 (he ▸ List.mem_map_of_mem ha)⟩
  · obtain ⟨l, hl, hown, hmem⟩ := h.held r hr
    have hfront := strict_of_virtual htracked.sorted htracked.nodes htokens
    rcases h.moves hok hl hown hmem hfront (hvirtual ▸ htracked.nodes) with hstay | ⟨hmoved, hgot⟩
    · exact ⟨l, hlive ▸ List.mem_append_left _ hl, hstay, mem_foldl_pull hmem⟩
    · exact ⟨node, hlive ▸ List.mem_append_right _ List.mem_cons_self, hmoved, hgot⟩

theorem Served.second (h : Served hash32 token s) {t : UInt32} {n : Node}
    (hn : n ∈ (s.rings.ring.keyRing t replicaMax).bind (·[1]?)) :
    (s.rings.ring.full t)[1]? = some n.ip ∧
      ∃ l ∈ s.rings.live, n.ip = l.ip ∧ n.rpcEndpoint = l.rpcEndpoint := by
  obtain ⟨nodes, hk, hn⟩ := Option.bind_eq_some_iff.mp hn
  refine ⟨?_, h.live_of_keyRing hk (List.mem_of_getElem? hn)⟩
  have hne : s.rings.ring.nodes ≠ [] := fun he => by simp [keyRing, ownerOf, he] at hk
  obtain ⟨ring, hring, hips⟩ : ∃ ring, s.rings.ring.keyRing t replicaMax = some ring ∧ _ :=
    keyRing_full h.tracked.sorted hne h.tracked.num (by decide) t
  obtain rfl := Option.some.inj (hk.symm.trans hring)
  have h₁ : ((s.rings.ring.full t).take (min s.rings.ring.nodeNum.toNat replicaMax))[1]? = some n.ip := by
    rw [← hips, List.getElem?_map, hn, Option.map_some]
  rw [List.getElem?_take] at h₁
  split at h₁
  · exact h₁
  · cases h₁

theorem Served.without_eq (h : Served hash32 token s) {name : String} {l : Node}
    (hl : l ∈ s.rings.live) (hname : l.name ≠ name) :
    s.without name l.rpcEndpoint = s.stores l.rpcEndpoint := by
  rw [without, if_neg]
  intro hmem
  obtain ⟨l', hl', he⟩ := List.mem_map.mp hmem
  obtain ⟨hl', hname'⟩ := List.mem_filter.mp hl'
  have hsame := List.inj_on_of_nodup_map h.endpoints hl' hl he
  exact hname (by simpa [hsame] using hname')

theorem Served.leave (h : Served hash32 token s) {node : Node} {t : Cluster ρ}
    (hok : s.Distinct hash32 (.member (.leave node))) (hcov : s.Covered token (.member (.leave node)))
    (hs : s.step hash32 self token (.member (.leave node)) = some t) : Served hash32 token t := by
  obtain ⟨rings, hrings, rfl⟩ := Option.map_eq_some_iff.mp hs
  have htracked := h.tracked.after hok.1 hok.2.1 hrings
  obtain ⟨hring, hlive⟩ := handle_leave hrings
  obtain ⟨n₀, hn₀, hname, hip⟩ := hok.1
  obtain ⟨hfilter, _⟩ := live_filter h.tracked.names h.tracked.ips hn₀ hname hip
  have hvirtual : rings.virtual hash32 = (s.rings.virtual hash32).filter (·.ip ≠ node.ip) :=
    virtual_filter (by rw [hring]; rfl) (hlive.trans hfilter)
  -- members with another address stay, with their stores
  have hstay : ∀ l ∈ s.rings.live, l.ip ≠ node.ip →
      l ∈ rings.live ∧ s.without node.name l.rpcEndpoint = s.stores l.rpcEndpoint := by
    intro l hl hne
    have hl' : l ∈ s.rings.live.filter (·.name ≠ node.name) := by
      rw [hfilter]
      exact List.mem_filter.mpr ⟨hl, by simpa using hne⟩
    exact ⟨hlive ▸ hl', h.without_eq hl (by simpa using (List.mem_filter.mp hl').2)⟩
  have howner : ∀ t, rings.ring.ownerIp t = ((s.rings.ring.full t).filter (· ≠ node.ip)).head? := by
    intro t
    rw [hring, ← head?_full (onRemove_sorted _ node), full_onRemove h.tracked.sorted]
  refine ⟨htracked, ?_, ?_, fun r hr => ?_⟩
  · rw [hvirtual]
    exact h.tokens.sublist (List.filter_sublist.map _)
  · rw [hlive]
    exact h.endpoints.sublist (List.filter_sublist.map _)
  · obtain ⟨l, hl, hown, hmem⟩ := h.held r hr
    have hhead := head?_full h.tracked.sorted (token r)
    by_cases hx : l.ip = node.ip
    · obtain ⟨second, hsecond, hmem₂⟩ := hcov r hr (hx ▸ hown)
      obtain ⟨hfull, l₂, hl₂, hip₂, hend₂⟩ := h.second hsecond
      have hnd : (s.rings.ring.full (token r)).Nodup := by
        rw [full_eq_met h.tracked.sorted]
        exact nodup_eraseDups _
      have hnext : ((s.rings.ring.full (token r)).filter (· ≠ node.ip)).head? = some l₂.ip := by
        rw [head?_filter_of_eq hnd (hhead.trans (hx ▸ hown)), hfull, hip₂]
      have hne : l₂.ip ≠ node.ip := by simpa using (List.mem_filter.mp (List.mem_of_head? hnext)).2
      obtain ⟨hl₂', hstore⟩ := hstay l₂ hl₂ hne
      refine ⟨l₂, hl₂', (howner _).trans hnext, ?_⟩
      show r ∈ s.without node.name l₂.rpcEndpoint
      rw [hstore, ← hend₂]
      exact hmem₂
    · obtain ⟨hl', hstore⟩ := hstay l hl hx
      refine ⟨l, hl', ?_, ?_⟩
      · rw [howner, head?_filter_of_ne (by rw [hhead, hown]; simpa using hx), hhead, hown]
      · show r ∈ s.without node.name l.rpcEndpoint
        rw [hstore]
        exact hmem

theorem Served.update (h : Served hash32 token s) {node : Node} {t : Cluster ρ}
    (hok : s.Distinct hash32 (.member (.update node)))
    (hs : s.step hash32 self token (.member (.update node)) = some t) : Served hash32 token t := by
  obtain rfl := Option.some.inj hs
  have hrings : s.rings.handle hash32 self (.update node) =
      some { s.rings with ring := s.rings.ring.onUpdate node } := rfl
  have htracked := h.tracked.after hok.1 hok.2.1 hrings
  have hfront := strict_of_virtual htracked.sorted htracked.nodes h.tokens
  refine ⟨htracked, h.tokens, h.endpoints, fun r hr => ?_⟩
  obtain ⟨l, hl, hown, hmem⟩ := h.held r hr
  refine ⟨l, hl, ?_, hmem⟩
  rw [ownerIp_eq_of_perm h.front hfront (h.tracked.nodes.trans htracked.nodes.symm)] at hown
  exact hown

theorem Served.step (h : Served hash32 token s) {e : ClusterEvent ρ} {t : Cluster ρ}
    (hok : s.Distinct hash32 e) (hcov : s.Covered token e)
    (hs : s.step hash32 self token e = some t) : Served hash32 token t := by
  cases e with
  | create r => exact h.create hs
  | member e =>
    cases e with
    | join node => exact h.join hok hs
    | leave node => exact h.leave hok hcov hs
    | update node => exact h.update hok hs

/-- While the second replica of a record has it when the primary leaves, every acknowledged
record is found. -/
theorem acked_found [DecidableEq ρ]
    (h : Reaches (step hash32 self token) (fun s e => s.Distinct hash32 e ∧ s.Covered token e) initial s)
    {r : ρ} (hr : r ∈ s.acked) : s.runGet token r = some true := by
  have hs : Served hash32 token s :=
    h.invariant .initial fun s e t hs hok hst => hs.step hok.1 hok.2 hst
  obtain ⟨l, hl, hown, hmem⟩ := hs.held r hr
  have hne : s.rings.ring.nodes ≠ [] := fun he => by simp [ownerIp, ownerOf, he] at hown
  obtain ⟨ring, hring, _⟩ : ∃ ring, s.rings.ring.keyRing (token r) replicaMax = some ring ∧ _ :=
    keyRing_full hs.tracked.sorted hne hs.tracked.num (by decide) (token r)
  obtain ⟨p, rest, rfl, hp⟩ := keyRing_head hring
  obtain ⟨l', hl', hip, hend⟩ := hs.live_of_keyRing hring List.mem_cons_self
  have hsame : l' = l := eq_of_ip hs.tracked hl' hl (hip.symm.trans (Option.some.inj (hp.symm.trans hown)))
  simp [runGet, hring, hend, hsame, hmem]

/-- Two members, a record on both, and then the primary leaves. -/
theorem acked_found_sample : ∃ s : Cluster UInt32,
    Reaches (step Murmur3.sum32 "node-b" id) (fun s e => s.Distinct Murmur3.sum32 e ∧ s.Covered id e)
      initial s ∧ s.rings.live = [nodeB] ∧ 1050000000 ∈ s.acked ∧ s.runGet id 1050000000 = some true := by
  obtain ⟨s, hr, hlive, hacked⟩ := exists_reaches_of_checkedRun (step Murmur3.sum32 "node-b" id)
    (fun s e => s.Distinct Murmur3.sum32 e ∧ s.Covered id e)
    (fun s : Cluster UInt32 => s.rings.live = [nodeB] ∧ 1050000000 ∈ s.acked) initial
    [.member (.join nodeA), .member (.join nodeB), .create 1050000000, .member (.leave nodeA)]
    (by decide +kernel)
  exact ⟨s, hr, hlive, hacked, acked_found hr hacked⟩

/-- A third member becomes the second replica of a record, which is not handed over to it
since the primary stays. When the primary leaves, the third one is asked; the other one
still has the record. -/
theorem acked_lost : ∃ s : Cluster UInt32,
    Reaches (step Murmur3.sum32 "node-b" id) (fun s e => s.Distinct Murmur3.sum32 e ∧ s.Survives e)
      initial s ∧ 1050000000 ∈ s.acked ∧ 1050000000 ∈ s.stores nodeB.rpcEndpoint ∧
      nodeB ∈ s.rings.live ∧ s.runGet id 1050000000 = some false :=
  exists_reaches_of_checkedRun (step Murmur3.sum32 "node-b" id)
    (fun s e => s.Distinct Murmur3.sum32 e ∧ s.Survives e)
    (fun s : Cluster UInt32 => 1050000000 ∈ s.acked ∧ 1050000000 ∈ s.stores nodeB.rpcEndpoint ∧
      nodeB ∈ s.rings.live ∧ s.runGet id 1050000000 = some false) initial
    [.member (.join nodeA), .member (.join nodeB), .create 1050000000, .member (.join nodeC),
      .member (.leave nodeA)] (by decide +kernel)

end Cluster

end Tarantula
