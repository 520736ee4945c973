import Tarantula.ConsistentHashing
import Tarantula.Handoff

/-! The ranges that a member announces to a new one: together exactly the tokens that
move from the one to the other, each token once. The new virtual nodes are put on the ring
one by one; a token moves with the first of them that takes it over, and later ones find
it with the new member already. -/

namespace Tarantula

theorem inRange_iff_before {lo hi t : UInt32} (h : lo ≠ hi) :
    inRange lo hi t = true ↔ Before t hi lo := by
  unfold inRange Before
  grind

def RingRange.covers (r : RingRange) (t : UInt32) : Bool := inRange r.lo r.hi t

namespace NodeRing

variable {m : NodeRing} {nodes : List Node} {t : UInt32}

def owner (nodes : List Node) (t : UInt32) : Option Node := (around nodes t).head?

theorem ownerIp_eq (hs : Sorted m.nodes) (t : UInt32) :
    m.ownerIp t = (owner m.nodes t).map (·.ip) := by
  by_cases hne : m.nodes = []
  · simp [ownerIp, ownerOf, owner, around, clockwise, hne]
  · obtain ⟨ix, hix, hlt, haround⟩ := exists_ownerOf t hs hne
    rw [ownerIp, hix, owner, haround, List.drop_eq_getElem_cons hlt, List.cons_append,
      List.head?_cons, Option.map_some, Option.map_some, List.getD_eq_getElem _ _ hlt]

theorem rangeOfRing_eq (hs : Sorted m.nodes) (hne : m.nodes ≠ []) (t : UInt32) :
    ∃ p o, m.rangeOfRing t = some (p, o) ∧ (around m.nodes t).getLast? = some p ∧
      owner m.nodes t = some o := by
  obtain ⟨ix, hix, hlt, haround⟩ := exists_ownerOf t hs hne
  refine ⟨_, _, by rw [rangeOfRing, hix]; rfl, ?_, ?_⟩
  · rw [haround]
    split
    · next h₀ =>
      rw [h₀, List.take_zero, List.append_nil, List.drop_zero, List.getLast?_eq_getElem?,
        List.getD_eq_getElem _ _ (by omega), List.getElem?_eq_getElem]
    · next h₀ =>
      rw [List.getLast?_append, List.getLast?_take, if_neg h₀, List.getElem?_eq_getElem (by omega),
        List.getD_eq_getElem _ _ (by omega)]
      rfl
  · rw [owner, haround, List.drop_eq_getElem_cons hlt, List.cons_append, List.head?_cons,
      List.getD_eq_getElem _ _ hlt]

theorem strict_insert {n : Node} (hs : Strict nodes) (hn : ∀ o ∈ nodes, n.ringToken ≠ o.ringToken) :
    Strict (sortNodes (nodes ++ [n])) ∧ (sortNodes (nodes ++ [n])).Perm (n :: nodes) := by
  have hp : (sortNodes (nodes ++ [n])).Perm (n :: nodes) :=
    (sortNodes_perm _).trans (List.perm_append_singleton n nodes)
  refine ⟨(sortNodes_sorted _).strict ?_, hp⟩
  rw [(hp.map _).nodup_iff, List.map_cons, List.nodup_cons]
  refine ⟨fun h => ?_, hs.tokens⟩
  obtain ⟨o, ho, he⟩ := List.mem_map.mp h
  exact hn o ho he.symm

theorem mem_of_owner {o : Node} (h : owner nodes t = some o) : o ∈ nodes :=
  mem_clockwise.mp (List.mem_of_head? h)

theorem owner_insert {n o p : Node} (hs : Strict nodes) (hn : ∀ o ∈ nodes, n.ringToken ≠ o.ringToken)
    (hp : (around nodes n.ringToken).getLast? = some p) (ho : owner nodes t = some o) :
    (RingRange.covers ⟨p.ringToken, n.ringToken⟩ t = true ∧
      owner (sortNodes (nodes ++ [n])) t = some n ∧ owner nodes n.ringToken = some o) ∨
    (RingRange.covers ⟨p.ringToken, n.ringToken⟩ t = false ∧
      owner (sortNodes (nodes ++ [n])) t = some o) := by
  obtain ⟨hs', hperm⟩ := strict_insert hs hn
  have hpn : p.ringToken ≠ n.ringToken := (hn p (getLast?_clockwise hs hp).1).symm
  have hcover : RingRange.covers ⟨p.ringToken, n.ringToken⟩ t = true ↔
      Before t n.ringToken o.ringToken := by
    rw [before_first_iff hs hn ho hp]
    exact inRange_iff_before hpn
  by_cases hb : Before t n.ringToken o.ringToken
  · exact .inl ⟨hcover.mpr hb, head?_insert_of_before hs hs' hperm ho hb, head?_of_before hs ho hb⟩
  · refine .inr ⟨Bool.eq_false_iff.mpr (mt hcover.mp hb), ?_⟩
    exact head?_insert_of_not_before hs hs' hperm (hn o (mem_of_owner ho)) ho hb

/-- A run of the loop: every token stays with its owner or moves to a new node, and it is
announced once if it moves away from a local node, and not at all otherwise. -/
theorem announceBy_spec {own : Node → Bool} {added : List Node} (hne : m.nodes ≠ []) (hs : Strict m.nodes)
    (htok : (m.nodes ++ added).Pairwise (fun n₁ n₂ => n₁.ringToken ≠ n₂.ringToken))
    (hadded : ∀ n ∈ added, own n = false) (sync : RingSync) :
    ∃ after sync' new, announceBy own added m sync = some (after, sync') ∧
      sync'.ranges = sync.ranges ++ new ∧ Strict after.nodes ∧
      after.nodes.Perm (added ++ m.nodes) ∧ after.nodeNum = m.nodeNum ∧
      ∀ t o, owner m.nodes t = some o → ∃ o', owner after.nodes t = some o' ∧
        (o' = o ∨ o' ∈ added) ∧
        new.countP (·.covers t) = if own o = true ∧ o' ≠ o then 1 else 0 := by
  induction added generalizing m sync with
  | nil =>
    exact ⟨m, sync, [], rfl, by simp, hs, .rfl, rfl, fun t o ho => ⟨o, ho, .inl rfl, by simp⟩⟩
  | cons n added ih =>
    have hlocal := hadded n List.mem_cons_self
    obtain ⟨hold, hnew, hcross⟩ := List.pairwise_append.mp htok
    obtain ⟨hn', hnew⟩ := List.pairwise_cons.mp hnew
    have hn : ∀ o ∈ m.nodes, n.ringToken ≠ o.ringToken :=
      fun o ho => (hcross o ho n List.mem_cons_self).symm
    obtain ⟨hs', hperm⟩ := strict_insert hs hn
    obtain ⟨p, oₙ, hrange, hp, hoₙ⟩ := rangeOfRing_eq hs.sorted hne n.ringToken
    have htok' : (sortNodes (m.nodes ++ [n]) ++ added).Pairwise
        (fun n₁ n₂ => n₁.ringToken ≠ n₂.ringToken) := by
      refine List.pairwise_append.mpr ⟨hs'.imp ne_of_lt, hnew, fun a ha b hb => ?_⟩
      rcases List.mem_cons.mp (hperm.mem_iff.mp ha) with rfl | ha
      · exact hn' b hb
      · exact hcross a ha b (List.mem_cons_of_mem _ hb)
    have hne' : sortNodes (m.nodes ++ [n]) ≠ [] := fun h => by simpa [h] using hperm.length_eq
    obtain ⟨after, sync', new, hrun, hranges, hsafter, hpafter, hnum, hcount⟩ :=
      ih (m := { m with nodes := sortNodes (m.nodes ++ [n]) }) hne' hs' htok'
        (fun a ha => hadded a (List.mem_cons_of_mem _ ha))
        (if own oₙ then ⟨oₙ.rpcEndpoint, sync.ranges ++ [⟨p.ringToken, n.ringToken⟩]⟩ else sync)
    refine ⟨after, sync', (if own oₙ then [⟨p.ringToken, n.ringToken⟩] else []) ++ new,
      ?_, ?_, hsafter, ?_, hnum, fun t o ho => ?_⟩
    · rw [announceBy, if_neg (by simp [hlocal]), hrange]
      exact hrun
    · rw [hranges]
      split <;> simp
    · exact hpafter.trans ((hperm.append_left added).trans List.perm_middle)
    · rcases owner_insert hs hn hp ho with ⟨hcov, hnow, hsucc⟩ | ⟨hcov, hnow⟩
      · -- the token moves to `n`, from where later nodes move it silently
        obtain rfl : oₙ = o := Option.some.inj (hoₙ.symm.trans hsucc)
        obtain ⟨o', ho', hwhere, hc⟩ := hcount t n hnow
        have hmem : o' ∈ n :: added := by
          rcases hwhere with rfl | h
          · exact List.mem_cons_self
          · exact List.mem_cons_of_mem _ h
        have hmoved : o' ≠ oₙ := fun he => hcross oₙ (mem_of_owner ho) o' hmem (by rw [he])
        refine ⟨o', ho', .inr hmem, ?_⟩
        rw [List.countP_append, hc]
        by_cases hl : own oₙ = true
        · simp [hl, hlocal, hcov, hmoved]
        · simp [hl, hlocal]
      · obtain ⟨o', ho', hwhere, hc⟩ := hcount t o hnow
        refine ⟨o', ho', hwhere.imp_right (List.mem_cons_of_mem _), ?_⟩
        rw [List.countP_append, hc]
        split <;> simp [hcov]

theorem announceBy_remote {own : Node → Bool} {endpoint : String} {added : List Node} {after : NodeRing}
    {sync sync' : RingSync} (hs : Sorted m.nodes) (h : announceBy own added m sync = some (after, sync'))
    (hnodes : ∀ n ∈ m.nodes ++ added, own n = true → n.rpcEndpoint = endpoint)
    (hsync : sync.ranges ≠ [] → sync.remote = endpoint) :
    sync'.ranges ≠ [] → sync'.remote = endpoint := by
  induction added generalizing m sync with
  | nil =>
    cases h
    exact hsync
  | cons n added ih =>
    have hnodes' : ∀ n' ∈ sortNodes (m.nodes ++ [n]) ++ added, own n' = true →
        n'.rpcEndpoint = endpoint := by
      intro n' hn'
      refine hnodes n' ?_
      simpa [or_assoc] using hn'
    rw [announceBy] at h
    split at h
    · exact ih (sortNodes_sorted _) h hnodes' hsync
    · split at h
      · cases h
      · next p o hrange =>
        have hne : m.nodes ≠ [] := fun he => by simp [rangeOfRing, ownerOf, he] at hrange
        refine ih (sortNodes_sorted _) h hnodes' ?_
        split
        · next hlocal =>
          intro _
          obtain ⟨_, o', hrange', _, ho'⟩ := rangeOfRing_eq hs hne n.ringToken
          obtain ⟨_, rfl⟩ := Prod.mk.inj (Option.some.inj (hrange.symm.trans hrange'))
          exact hnodes o (List.mem_append_left _ (mem_of_owner ho')) hlocal
        · exact hsync

theorem pairwise_disjoint_of_countP {ranges : List RingRange}
    (h : ∀ t, ranges.countP (·.covers t) ≤ 1) :
    ranges.Pairwise (fun r₁ r₂ => ∀ t, ¬(r₁.covers t = true ∧ r₂.covers t = true)) := by
  induction ranges with
  | nil => exact .nil
  | cons r ranges ih =>
    refine List.pairwise_cons.mpr ⟨fun r' hr' t ⟨h₁, h₂⟩ => ?_, ih fun t => ?_⟩
    · have hpos : 0 < ranges.countP (·.covers t) := List.countP_pos_iff.mpr ⟨r', hr', h₂⟩
      have hle := h t
      rw [List.countP_cons, if_pos h₁] at hle
      omega
    · exact le_trans (by rw [List.countP_cons]; omega) (h t)

def announced (sent : Option (String × RingSync)) : List RingRange :=
  match sent with
  | some (_, sync) => sync.ranges
  | none => []

theorem announced_notice {added : List Node} {sync : RingSync} (h : added = [] → sync.ranges = []) :
    announced (notice added sync) = sync.ranges := by
  obtain ⟨remote, ranges⟩ := sync
  cases added with
  | nil => exact (h rfl).symm
  | cons n added => cases ranges <;> rfl

theorem balanceOnNodeAdded_moves {self : String} {added : List Node} (hne : m.nodes ≠ [])
    (hs : Strict m.nodes) (hnum : m.nodeNum ≠ 0)
    (htok : ((m.nodes ++ added).map (·.ringToken)).Nodup)
    (hadded : ∀ n ∈ added, localNode self n = false) :
    ∃ after sent, m.balanceOnNodeAdded self added = some (after, sent) ∧
      Strict after.nodes ∧ after.nodes.Perm (added ++ m.nodes) ∧ after.nodeNum = m.nodeNum + 1 ∧
      ∀ t o, owner m.nodes t = some o → ∃ o', owner after.nodes t = some o' ∧
        (o' = o ∨ o' ∈ added) ∧
        (announced sent).countP (·.covers t) = if localNode self o = true ∧ o' ≠ o then 1 else 0 := by
  have hperm := sortNodes_perm added
  have htok' : (m.nodes ++ sortNodes added).Pairwise (fun n₁ n₂ => n₁.ringToken ≠ n₂.ringToken) :=
    List.pairwise_map.mp (((hperm.append_left m.nodes).map _).nodup_iff.mpr htok)
  obtain ⟨after, sync, new, hrun, hranges, hsafter, hpafter, hnum', hcount⟩ :=
    announceBy_spec hne hs htok' (fun n hn => hadded n (hperm.mem_iff.mp hn)) ⟨"", []⟩
  refine ⟨{ after with nodeNum := after.nodeNum + 1 }, notice (sortNodes added) sync, ?_, hsafter,
    hpafter.trans (hperm.append_right _), by rw [← hnum'], fun t o ho => ?_⟩
  · unfold balanceOnNodeAdded
    dsimp only
    rw [if_neg hnum, announce, hrun]
    rfl
  · have hnone : sortNodes added = [] → sync.ranges = [] := by
      intro he
      rw [he] at hrun
      cases hrun
      rfl
    obtain ⟨o', ho', hwhere, hc⟩ := hcount t o ho
    refine ⟨o', ho', hwhere.imp_right hperm.mem_iff.mp, ?_⟩
    rw [announced_notice hnone, hranges, List.nil_append, hc]

theorem balanceOnNodeAdded_sent {self endpoint target target' : String} {added : List Node}
    {after : NodeRing} {sync : RingSync} (hs : Sorted m.nodes)
    (h : m.balanceOnNodeAdded self added = some (after, some (target, sync)))
    (hnodes : ∀ n ∈ m.nodes ++ added, localNode self n = true → n.rpcEndpoint = endpoint)
    (hadded : ∀ n ∈ added, n.rpcEndpoint = target') : target = target' ∧ sync.remote = endpoint := by
  unfold balanceOnNodeAdded at h
  split at h
  · simp at h
  · obtain ⟨⟨m', sync'⟩, hrun, he⟩ := Option.map_eq_some_iff.mp h
    have hremote : sync'.ranges ≠ [] → sync'.remote = endpoint :=
      announceBy_remote hs hrun (fun n hn => hnodes n (by simpa using hn)) (fun h => absurd rfl h)
    have hsent : notice (sortNodes added) sync' = some (target, sync) := (Prod.mk.inj he).2
    unfold notice at hsent
    split at hsent
    · next first rest remote r ranges hfirst =>
      cases hsent
      exact ⟨hadded first (mem_sortNodes.mp (by rw [hfirst]; exact List.mem_cons_self)),
        hremote (List.cons_ne_nil r ranges)⟩
    · cases hsent

/-- What the member `host` announces when `x` joins: disjoint ranges, which cover exactly
the tokens that it owned and that `x` owns on the ring with the new nodes. -/
theorem join_handoff_covers (backRing : NodeRing) (added : List Node) (self host x : String)
    (hm : backRing.WellFormed) (hhost : host ∈ backRing.nodes.map (·.ip))
    (hx : x ∉ backRing.nodes.map (·.ip)) (hadded : ∀ n ∈ added, n.ip = x)
    (htok : ((backRing.nodes ++ added).map (·.ringToken)).Nodup)
    (hlocal : ∀ n ∈ backRing.nodes ++ added, localNode self n = true ↔ n.ip = host) :
    ∃ after sent, backRing.balanceOnNodeAdded self added = some (after, sent) ∧
      after.nodes.Perm (added ++ backRing.nodes) ∧ Sorted after.nodes ∧
      after.nodeNum = backRing.nodeNum + 1 ∧
      (announced sent).Pairwise (fun r₁ r₂ => ∀ t, ¬(r₁.covers t = true ∧ r₂.covers t = true)) ∧
      (∀ t, (∃ r ∈ announced sent, r.covers t = true) ↔
        backRing.ownerIp t = some host ∧ after.ownerIp t = some x) ∧
      ∀ t, backRing.ownerIp t = some host → after.ownerIp t = some x →
        (announced sent).countP (·.covers t) = 1 := by
  obtain ⟨_, hmem, _⟩ := List.mem_map.mp hhost
  have hne : backRing.nodes ≠ [] := List.ne_nil_of_mem hmem
  have hfar : ∀ n ∈ added, localNode self n = false := by
    intro n hn
    rw [Bool.eq_false_iff, Ne, hlocal n (List.mem_append_right _ hn), hadded n hn]
    exact fun he => hx (he ▸ hhost)
  have hnum : backRing.nodeNum ≠ 0 := by
    have hpos : 0 < hosts backRing.nodes := List.length_pos_of_mem (List.mem_eraseDups.mpr hhost)
    rw [hm.num]
    omega
  obtain ⟨after, sent, hbalance, hsafter, hperm, hafterNum, hcount⟩ :=
    balanceOnNodeAdded_moves hne (hm.sorted.strict hm.tokens) hnum htok hfar
  -- the owners before and after, and how often the token is announced
  have hmoves : ∀ t, (announced sent).countP (·.covers t) =
      if backRing.ownerIp t = some host ∧ after.ownerIp t = some x then 1 else 0 := by
    intro t
    obtain ⟨_, o, _, _, ho⟩ := rangeOfRing_eq hm.sorted hne t
    obtain ⟨o', ho', hwhere, hc⟩ := hcount t o ho
    have homem := mem_of_owner ho
    have hox : o.ip ≠ x := fun he => hx (he ▸ List.mem_map_of_mem homem)
    have hlo := hlocal o (List.mem_append_left _ homem)
    rw [hc, ownerIp_eq hm.sorted, ownerIp_eq hsafter.sorted, ho, ho']
    rcases hwhere with rfl | hnew
    · simp [hox]
    · have hox' := hadded o' hnew
      have hne' : o' ≠ o := fun he => hox (he ▸ hox')
      simp [hox', hne', hlo]
  refine ⟨after, sent, hbalance, hperm, hsafter.sorted, hafterNum,
    pairwise_disjoint_of_countP fun t => ?_, fun t => ?_, fun t h₁ h₂ => ?_⟩
  · rw [hmoves]
    split <;> omega
  · rw [← List.countP_pos_iff, hmoves]
    split <;> simp_all
  · rw [hmoves, if_pos ⟨h₁, h₂⟩]

/-- The third member joins a ring of two: the ring with its nodes, and what the first member
announces. -/
theorem join_handoff_covers_sample :
    ∃ after sent, MemberHashRing.sampleRing.balanceOnNodeAdded "node-a"
        (MemberHashRing.sampleRing.onAdd Murmur3.sum32 MemberHashRing.nodeC).2 = some (after, sent) ∧
      after.nodes.Perm ((MemberHashRing.sampleRing.onAdd Murmur3.sum32 MemberHashRing.nodeC).2 ++
        MemberHashRing.sampleRing.nodes) ∧
      Sorted after.nodes ∧ after.nodeNum = 3 ∧ announced sent ≠ [] ∧
      ∀ t, (∃ r ∈ announced sent, r.covers t = true) ↔
        MemberHashRing.sampleRing.ownerIp t = some MemberHashRing.nodeA.ip ∧
          after.ownerIp t = some MemberHashRing.nodeC.ip := by
  obtain ⟨after, sent, h, hperm, hsorted, hnum, _, hcovers, _⟩ :=
    join_handoff_covers MemberHashRing.sampleRing.toNodeRing
      (MemberHashRing.sampleRing.onAdd Murmur3.sum32 MemberHashRing.nodeC).2 "node-a"
      MemberHashRing.nodeA.ip MemberHashRing.nodeC.ip MemberHashRing.sampleRing_wellFormed
      (by decide +kernel) (by decide +kernel) (by decide +kernel) (by decide +kernel) (by decide +kernel)
  have hsome : ((MemberHashRing.sampleRing.balanceOnNodeAdded "node-a"
      (MemberHashRing.sampleRing.onAdd Murmur3.sum32 MemberHashRing.nodeC).2).map
        fun r => announced r.2) ≠ some [] := by decide +kernel
  refine ⟨after, sent, h, hperm, hsorted, hnum, fun he => ?_, hcovers⟩
  rw [h, Option.map_some, he] at hsome
  exact hsome rfl

end NodeRing

end Tarantula
