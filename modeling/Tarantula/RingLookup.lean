import Mathlib.Data.List.GetD
import Tarantula.Clockwise
import Tarantula.NodeRing

/-! What the ring answers: the owner of a token is the first node clockwise from it, and
the replicas of a key are the first addresses met. -/

namespace Tarantula

instance instLinearOrderUInt32 : LinearOrder UInt32 where
  le_refl := UInt32.le_refl
  le_trans _ _ _ := UInt32.le_trans
  lt_iff_le_not_ge a b := by
    simp only [UInt32.lt_iff_toNat_lt, UInt32.le_iff_toNat_le]
    omega
  le_antisymm _ _ := UInt32.le_antisymm
  le_total := UInt32.le_total
  toDecidableLE := inferInstance
  toDecidableEq := inferInstance
  toDecidableLT := inferInstance

namespace NodeRing

/-- The nodes are sorted by token; tokens may be equal. -/
def Sorted (nodes : List Node) : Prop := nodes.Pairwise (·.ringToken ≤ ·.ringToken)

/-- The nodes met clockwise from the owner of `t`. -/
def around (nodes : List Node) (t : UInt32) : List Node := clockwise Node.ringToken t nodes

def met (nodes : List Node) (t : UInt32) : List String := ((around nodes t).map (·.ip)).eraseDups

def full (m : NodeRing) (t : UInt32) : List String :=
  match m.ownerOf t with
  | none => []
  | some ix => ((m.nodes.drop ix ++ m.nodes.take ix).map (·.ip)).eraseDups

def hosts (nodes : List Node) : Nat := (nodes.map (·.ip)).eraseDups.length

variable {m : NodeRing} {nodes : List Node} {t : UInt32}

section Owner

def upTo (nodes : List Node) (t : UInt32) : Nat :=
  (nodes.filter (fun n => !decide (t < n.ringToken))).length

theorem sorted_split (hs : Sorted nodes) (t : UInt32) :
    nodes = nodes.filter (fun n => !decide (t < n.ringToken)) ++
      nodes.filter (fun n => t < n.ringToken) := by
  induction nodes with
  | nil => rfl
  | cons n nodes ih =>
    obtain ⟨hn, hs⟩ := List.pairwise_cons.mp hs
    by_cases ht : t < n.ringToken
    · have hall : ∀ m ∈ nodes, t < m.ringToken := fun m hm => lt_of_lt_of_le ht (hn m hm)
      have h₁ : nodes.filter (fun n => !decide (t < n.ringToken)) = [] := by
        simpa [List.filter_eq_nil_iff] using hall
      have h₂ : nodes.filter (fun n => t < n.ringToken) = nodes := by
        simpa [List.filter_eq_self] using hall
      simp [ht, h₁, h₂]
    · have hih := ih hs
      simp only [ht, decide_false, Bool.not_false, List.filter_cons_of_pos, Bool.false_eq_true,
        not_false_eq_true, List.filter_cons_of_neg, List.cons_append]
      exact congrArg _ hih

theorem around_eq (hs : Sorted nodes) :
    around nodes t = nodes.drop (upTo nodes t) ++ nodes.take (upTo nodes t) := by
  have hsplit := sorted_split hs t
  conv_rhs => rw [hsplit]
  simp [upTo, around, clockwise]

theorem upTo_le (nodes : List Node) (t : UInt32) : upTo nodes t ≤ nodes.length := List.length_filter_le _ _

theorem lt_token_iff (hs : Sorted nodes) {i : Nat} (hi : i < nodes.length) :
    t < (nodes.getD i default).ringToken ↔ upTo nodes t ≤ i := by
  induction nodes generalizing i with
  | nil => simp at hi
  | cons n nodes ih =>
    obtain ⟨hn, hs⟩ := List.pairwise_cons.mp hs
    by_cases ht : t < n.ringToken
    · have h₀ : upTo (n :: nodes) t = 0 := by
        have hall : ∀ m ∈ nodes, t < m.ringToken := fun m hm => lt_of_lt_of_le ht (hn m hm)
        simpa [upTo, ht] using hall
      have hle : n.ringToken ≤ ((n :: nodes).getD i default).ringToken := by
        cases i with
        | zero => simp
        | succ i =>
          rw [List.getD_cons_succ, List.getD_eq_getElem _ _ (by simpa using hi)]
          exact hn _ (List.getElem_mem _)
      simp only [h₀, Nat.zero_le, iff_true]
      exact lt_of_lt_of_le ht hle
    · have h₁ : upTo (n :: nodes) t = upTo nodes t + 1 := by simp [upTo, ht]
      cases i with
      | zero => simp [h₁, ht]
      | succ i =>
        rw [List.getD_cons_succ, ih hs (by simpa using hi), h₁]
        omega

/-- The loop of `ownerOf` finds the first position whose token is above `t`. -/
theorem search_eq (hs : Sorted nodes) {fuel l r : Nat} (hfuel : r - l ≤ fuel) (hr : r ≤ nodes.length)
    (hl : l ≤ upTo nodes t) (hu : upTo nodes t ≤ r) :
    search nodes t fuel l r (if r < nodes.length then some r else none) =
      if upTo nodes t < nodes.length then some (upTo nodes t) else none := by
  induction fuel generalizing l r with
  | zero =>
    have he : r = upTo nodes t := by omega
    rw [search, he]
  | succ fuel ih =>
    rw [search]
    split
    · next hlr =>
      have hmd : l + (r - 1 - l) / 2 < nodes.length := by omega
      dsimp only
      split
      · next hlt =>
        have hrec := ih (l := l) (r := l + (r - 1 - l) / 2) (by omega) (by omega) hl
          ((lt_token_iff hs hmd).mp hlt)
        rwa [if_pos hmd] at hrec
      · next hge =>
        rw [lt_token_iff hs hmd] at hge
        exact ih (by omega) hr (by omega) hu
    · have he : r = upTo nodes t := by omega
      rw [he]

theorem ownerOf_eq (hs : Sorted m.nodes) (hne : m.nodes ≠ []) :
    m.ownerOf t = some (if upTo m.nodes t < m.nodes.length then upTo m.nodes t else 0) := by
  have hpos : 0 < m.nodes.length := List.length_pos_iff.mpr hne
  have hle := upTo_le m.nodes t
  have hfirst : t < (m.nodes.head hne).ringToken ↔ upTo m.nodes t ≤ 0 := by
    rw [← lt_token_iff hs hpos, List.getD_eq_getElem _ _ hpos, List.getElem_zero]
  have hlast : (m.nodes.getLast hne).ringToken ≤ t ↔ ¬upTo m.nodes t ≤ m.nodes.length - 1 := by
    rw [← lt_token_iff hs (by omega), List.getD_eq_getElem _ _ (by omega), List.getLast_eq_getElem,
      not_lt]
  unfold ownerOf
  rw [List.head?_eq_some_head hne, List.getLast?_eq_some_getLast hne]
  dsimp only
  split
  · next hcond =>
    rw [hfirst, hlast] at hcond
    split <;> congr 1
    omega
  · next hcond =>
    rw [hfirst, hlast] at hcond
    have hsearch : search m.nodes t m.nodes.length 0 m.nodes.length
        (if m.nodes.length < m.nodes.length then some m.nodes.length else none) = _ :=
      search_eq hs (by omega) le_rfl (by omega) hle
    rw [if_neg (lt_irrefl _)] at hsearch
    rw [hsearch]
    split <;> rfl

theorem exists_ownerOf (t : UInt32) (hs : Sorted m.nodes) (hne : m.nodes ≠ []) :
    ∃ ix, m.ownerOf t = some ix ∧ ix < m.nodes.length ∧
      around m.nodes t = m.nodes.drop ix ++ m.nodes.take ix := by
  have hpos : 0 < m.nodes.length := List.length_pos_iff.mpr hne
  refine ⟨_, ownerOf_eq hs hne, by split <;> omega, ?_⟩
  rw [around_eq hs]
  split
  · rfl
  · next hlen =>
    have he : upTo m.nodes t = m.nodes.length := by
      have hle := upTo_le m.nodes t
      omega
    rw [he]
    simp

end Owner

section Replicas

/-- The loop of `keyRing` on the list of the nodes it comes to. -/
def collect : List Node → Nat → List Node → Option (List Node)
  | _, 0, syncNodes => some syncNodes
  | [], _ + 1, _ => none
  | p :: nodes, syncNum + 1, syncNodes =>
    if syncNodes.any (fun nd => p.ip = nd.ip) then collect nodes (syncNum + 1) syncNodes
    else collect nodes syncNum (syncNodes ++ [p])

theorem walk_eq_collect {fuel ix n : Nat} {acc : List Node} (hix : ix ≤ nodes.length)
    (hfuel : fuel ≤ nodes.length) :
    walk nodes fuel ix n acc = collect (((nodes ++ nodes).drop ix).take fuel) n acc := by
  induction fuel generalizing ix n acc with
  | zero => cases n <;> simp [walk, collect]
  | succ fuel ih =>
    cases n with
    | zero => simp [walk, collect]
    | succ n =>
      -- at the end of the list the loop starts over
      have hwrap : ∃ i, i < nodes.length ∧ (if ix = nodes.length then 0 else ix) = i ∧
          ((nodes ++ nodes).drop ix).take (fuel + 1) = ((nodes ++ nodes).drop i).take (fuel + 1) := by
        by_cases he : ix = nodes.length
        · refine ⟨0, by omega, by simp [he], ?_⟩
          rw [he, List.drop_left, List.drop_zero, List.take_append_of_le_length hfuel]
        · exact ⟨ix, by omega, by simp [he], rfl⟩
      obtain ⟨i, hi, hif, htake⟩ := hwrap
      have hlen : i < (nodes ++ nodes).length := by
        rw [List.length_append]
        omega
      rw [htake, List.drop_eq_getElem_cons hlen, List.take_succ_cons, List.getElem_append_left hi,
        walk, hif, List.getD_eq_getElem _ _ hi, collect, ih (by omega) (by omega), ih (by omega) (by omega)]

def news (l : List Node) (seen : List String) : List String :=
  ((l.map (·.ip)).filter (fun ip => ip ∉ seen)).eraseDups

theorem news_cons_of_mem {p : Node} {l : List Node} {seen : List String} (hp : p.ip ∈ seen) :
    news (p :: l) seen = news l seen := by
  rw [news, List.map_cons, List.filter_cons_of_neg (by simpa using hp), news]

theorem news_cons_of_not_mem {p : Node} {l : List Node} {seen : List String} (hp : p.ip ∉ seen) :
    news (p :: l) seen = p.ip :: news l (seen ++ [p.ip]) := by
  rw [news, List.map_cons, List.filter_cons_of_pos (by simpa using hp), List.eraseDups_cons,
    List.filter_filter, news]
  congr 2
  refine List.filter_congr fun ip _ => ?_
  by_cases h : ip = p.ip <;> simp [h]

theorem collect_ips {l acc : List Node} {n : Nat} (hn : n ≤ (news l (acc.map (·.ip))).length) :
    ∃ ring, collect l n acc = some ring ∧
      ring.map (·.ip) = acc.map (·.ip) ++ (news l (acc.map (·.ip))).take n := by
  induction l generalizing n acc with
  | nil =>
    have h₀ : n = 0 := by simpa [news] using hn
    exact ⟨acc, by simp [h₀, collect], by simp [h₀]⟩
  | cons p l ih =>
    cases n with
    | zero => exact ⟨acc, by simp [collect], by simp⟩
    | succ n =>
      by_cases hp : p.ip ∈ acc.map (·.ip)
      · rw [news_cons_of_mem hp] at hn ⊢
        obtain ⟨ring, hring, hips⟩ := ih hn
        refine ⟨ring, ?_, hips⟩
        rw [collect, if_pos, hring]
        obtain ⟨nd, hnd, he⟩ := List.mem_map.mp hp
        exact List.any_eq_true.mpr ⟨nd, hnd, by simp [he]⟩
      · rw [news_cons_of_not_mem hp] at hn ⊢
        have hn' : n ≤ (news l ((acc ++ [p]).map (·.ip))).length := by simpa using hn
        obtain ⟨ring, hring, hips⟩ := ih hn'
        refine ⟨ring, ?_, by simpa using hips⟩
        rw [collect, if_neg, hring]
        simp only [List.any_eq_true, decide_eq_true_eq, not_exists, not_and]
        exact fun nd hnd he => hp (List.mem_map.mpr ⟨nd, hnd, he.symm⟩)

theorem met_length (nodes : List Node) (t : UInt32) : (met nodes t).length = hosts nodes :=
  (eraseDups_perm (clockwise_perm.map _)).length_eq

theorem full_eq_met (hs : Sorted m.nodes) (t : UInt32) : m.full t = met m.nodes t := by
  by_cases hne : m.nodes = []
  · simp [full, ownerOf, met, around, clockwise, hne]
  · obtain ⟨ix, hix, _, haround⟩ := exists_ownerOf t hs hne
    rw [full, hix, met, haround]

theorem met_of_around {o : Node} {rest : List Node} (h : around nodes t = o :: rest) :
    met nodes t = o.ip :: news (rest ++ [o]) [o.ip] := by
  have hlast : ([o].map (·.ip)).filter (fun ip => ip ∉ [o.ip]) = [] := by simp
  rw [met, h, List.map_cons, List.eraseDups_cons, news, List.map_append, List.filter_append, hlast,
    List.append_nil]
  congr 2
  refine List.filter_congr fun ip _ => ?_
  by_cases hip : ip = o.ip <;> simp [hip]

/-- One round of the loop of `keyRing`, which starts after the owner and comes back to it. -/
theorem round_eq {ix : Nat} (hix : ix < nodes.length) :
    ((nodes ++ nodes).drop (ix + 1)).take nodes.length =
      nodes.drop (ix + 1) ++ nodes.take ix ++ [nodes[ix]] := by
  rw [List.drop_append_of_le_length hix, List.take_append, List.take_of_length_le (by simp),
    List.length_drop, show nodes.length - (nodes.length - (ix + 1)) = ix + 1 by omega,
    List.append_assoc, List.take_append_getElem hix]

/-- The replicas of a key are, by address, the first ones met clockwise from its owner. -/
theorem keyRing_full (hs : Sorted m.nodes) (hne : m.nodes ≠ []) (hnum : m.nodeNum = hosts m.nodes)
    {replica : Nat} (hr : 0 < replica) (t : UInt32) :
    ∃ ring, m.keyRing t replica = some ring ∧
      ring.map (·.ip) = (m.full t).take (min m.nodeNum.toNat replica) := by
  obtain ⟨ix, hix, hlt, haround⟩ := exists_ownerOf t hs hne
  rw [List.drop_eq_getElem_cons hlt, List.cons_append] at haround
  have hfull := met_of_around haround
  have hlen := met_length m.nodes t
  rw [hfull, List.length_cons] at hlen
  rw [full_eq_met hs]
  unfold keyRing
  rw [hix]
  dsimp only
  rw [List.getD_eq_getElem _ _ hlt, hfull]
  split
  · next hone =>
    have h₁ : min m.nodeNum.toNat replica = 1 := by omega
    exact ⟨_, rfl, by simp [h₁]⟩
  · next hmore =>
    rw [if_neg (by omega), walk_eq_collect hlt le_rfl, round_eq hlt]
    have hn : (min m.nodeNum replica - 1).toNat ≤
        (news (m.nodes.drop (ix + 1) ++ m.nodes.take ix ++ [m.nodes[ix]])
          ([m.nodes[ix]].map (·.ip))).length := by
      simp only [List.map_cons, List.map_nil]
      omega
    obtain ⟨ring, hring, hips⟩ := collect_ips hn
    refine ⟨ring, hring, ?_⟩
    rw [hips, show min m.nodeNum.toNat replica = (min m.nodeNum replica - 1).toNat + 1 by omega]
    simp

theorem collect_mem {l acc ring : List Node} {n : Nat} (h : collect l n acc = some ring) :
    ∀ p ∈ ring, p ∈ acc ∨ p ∈ l := by
  induction l generalizing n acc with
  | nil =>
    cases n with
    | zero =>
      cases h
      exact fun p hp => .inl hp
    | succ n => cases h
  | cons q l ih =>
    cases n with
    | zero =>
      cases h
      exact fun p hp => .inl hp
    | succ n =>
      intro p hp
      rw [collect] at h
      split at h
      · exact (ih h p hp).imp_right (List.mem_cons_of_mem q)
      · rcases ih h p hp with hp | hp
        · rcases List.mem_append.mp hp with hp | hp
          · exact .inl hp
          · exact .inr (List.mem_singleton.mp hp ▸ List.mem_cons_self)
        · exact .inr (List.mem_cons_of_mem q hp)

theorem keyRing_mem (hs : Sorted m.nodes) {replica : Nat} {ring : List Node}
    (h : m.keyRing t replica = some ring) : ∀ p ∈ ring, p ∈ m.nodes := by
  by_cases hne : m.nodes = []
  · simp [keyRing, ownerOf, hne] at h
  obtain ⟨ix, hix, hlt, _⟩ := exists_ownerOf t hs hne
  unfold keyRing at h
  rw [hix] at h
  dsimp only at h
  rw [List.getD_eq_getElem _ _ hlt] at h
  have howner : m.nodes[ix] ∈ m.nodes := List.getElem_mem hlt
  split at h
  · cases h
    intro p hp
    exact List.mem_singleton.mp hp ▸ howner
  · split at h
    · cases h
    · rw [walk_eq_collect hlt le_rfl] at h
      intro p hp
      rcases collect_mem h p hp with hp | hp
      · exact List.mem_singleton.mp hp ▸ howner
      · have hp := List.mem_of_mem_drop (List.mem_of_mem_take hp)
        exact (List.mem_append.mp hp).elim id id

end Replicas

end NodeRing

end Tarantula
