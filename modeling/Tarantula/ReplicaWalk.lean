import Tarantula.RingLookup

/-! The nodes that `keyRing` answers with. It goes once around the ring from the owner of the
token, and takes a node whenever its address has not been taken before. -/

namespace Tarantula.NodeRing

variable {m : NodeRing} {t : UInt32} {ix : Nat} {o : Node}

def roundFrom (nodes : List Node) (ix : Nat) : List Node := nodes.drop ix ++ nodes.take ix

/-- Position `ix` is the first with a token above `t`, or 0 where there is none. -/
def Owns (nodes : List Node) (t : UInt32) (ix : Nat) : Prop :=
  (∃ o, nodes[ix]? = some o ∧ t < o.ringToken ∧ ∀ (j : Nat) n, j < ix → nodes[j]? = some n →
    n.ringToken ≤ t) ∨
    ix = 0 ∧ ∀ n ∈ nodes, n.ringToken ≤ t

/-- Each node is the first of the round with an address that the nodes before it do not have. -/
def FirstMet (round ring : List Node) : Prop :=
  ∀ (i : Nat) p, ring[i]? = some p → round.find? (fun q => q.ip ∉ (ring.take i).map (·.ip)) = some p

theorem ownerOf_owns (hs : Sorted m.nodes) (h : m.ownerOf t = some ix) (hne : m.nodes ≠ []) :
    Owns m.nodes t ix := by
  rw [ownerOf_eq hs hne, Option.some.injEq] at h
  have htoken : ∀ (j : Nat) n, m.nodes[j]? = some n → (t < n.ringToken ↔ upTo m.nodes t ≤ j) := by
    intro j n hj
    obtain ⟨hlt, rfl⟩ := List.getElem?_eq_some_iff.mp hj
    rw [← lt_token_iff hs hlt, List.getD_eq_getElem _ _ hlt]
  split at h
  · next hlt =>
    subst h
    left
    refine ⟨m.nodes[upTo m.nodes t], List.getElem?_eq_getElem hlt, ?_, fun j n hj hn => ?_⟩
    · rw [htoken _ _ (List.getElem?_eq_getElem hlt)]
    · rw [← not_lt, htoken j n hn]
      omega
  · next hge =>
    right
    refine ⟨h.symm, fun n hn => ?_⟩
    obtain ⟨j, hj⟩ := List.mem_iff_getElem?.mp hn
    have hlt := (List.getElem?_eq_some_iff.mp hj).1
    rw [← not_lt, htoken j n hj]
    omega

theorem any_ip {q : Node} {acc : List Node} :
    acc.any (fun nd => q.ip = nd.ip) = true ↔ q.ip ∈ acc.map (·.ip) := by
  simp only [List.any_eq_true, decide_eq_true_eq, List.mem_map, @eq_comm _ q.ip]

theorem collect_append {l acc ring : List Node} {n : Nat} (h : collect l n acc = some ring) :
    ∃ more, ring = acc ++ more := by
  fun_induction collect l n acc with
  | case1 l acc => exact ⟨[], by simpa using h.symm⟩
  | case2 n acc => cases h
  | case3 q l n acc hany ih => exact ih h
  | case4 q l n acc hany ih =>
    obtain ⟨more, hmore⟩ := ih h
    exact ⟨q :: more, by simp [hmore]⟩

theorem ips_take {acc more : List Node} {i : Nat} (hi : acc.length ≤ i) :
    ((acc ++ more).take i).map (·.ip) = acc.map (·.ip) ++ (more.take (i - acc.length)).map (·.ip) := by
  rw [List.take_append, List.take_of_length_le hi, List.map_append]

/-- What the loop of `keyRing` takes is the first node with an address not taken before. -/
theorem collect_firstMet {l acc ring : List Node} {n : Nat} (h : collect l n acc = some ring)
    {i : Nat} (hi : acc.length ≤ i) {p : Node} (hp : ring[i]? = some p) :
    l.find? (fun q => q.ip ∉ (ring.take i).map (·.ip)) = some p := by
  fun_induction collect l n acc with
  | case1 l acc =>
    rw [← Option.some.inj h, List.getElem?_eq_none_iff.mpr hi] at hp
    cases hp
  | case2 n acc => cases h
  | case3 q l n acc hany ih =>
    -- the address was taken before
    obtain ⟨more, rfl⟩ := collect_append h
    have hq := any_ip.mp hany
    have hih := ih h hi
    rw [ips_take hi] at hih ⊢
    rw [List.find?_cons_of_neg (by simp [hq]), hih]
  | case4 q l n acc hany ih =>
    obtain ⟨rest, rfl⟩ := collect_append h
    rw [any_ip] at hany
    by_cases he : i = acc.length
    · subst he
      obtain rfl : q = p := by simpa using hp
      rw [List.find?_cons_of_pos (by simpa [ips_take] using hany)]
    · have hlt : (acc ++ [q]).length ≤ i := by
        rw [List.length_append, List.length_singleton]
        omega
      have hih := ih h hlt
      rw [ips_take hlt] at hih ⊢
      rw [List.find?_cons_of_neg (by simp), hih]

theorem find?_round {rest : List Node} {seen : List String} (ho : o.ip ∈ seen) :
    (rest ++ [o]).find? (fun q => q.ip ∉ seen) = (o :: rest).find? fun q => q.ip ∉ seen := by
  rw [List.find?_append, List.find?_cons_of_neg (by simpa using ho),
    List.find?_cons_of_neg (by simpa using ho), List.find?_nil, Option.or_none]

theorem firstMet_singleton (rest : List Node) : FirstMet (o :: rest) [o] := by
  intro i p hp
  cases i with
  | zero =>
    obtain rfl : o = p := by simpa using hp
    rw [List.find?_cons_of_pos (by simp)]
  | succ i => simp at hp

theorem collect_round {rest ring : List Node} {n : Nat} (h : collect (rest ++ [o]) n [o] = some ring) :
    FirstMet (o :: rest) ring := by
  intro i p hp
  obtain ⟨more, rfl⟩ := collect_append h
  cases i with
  | zero =>
    obtain rfl : o = p := by simpa using hp
    rw [List.find?_cons_of_pos (by simp)]
  | succ i =>
    rw [← collect_firstMet h (by simp) hp, find?_round (by simp)]

theorem keyRing_firstMet (hix : m.ownerOf t = some ix) (hlt : ix < m.nodes.length) {replica : Nat}
    {ring : List Node} (h : m.keyRing t replica = some ring) :
    ring.head? = m.nodes[ix]? ∧ FirstMet (roundFrom m.nodes ix) ring := by
  have hround : roundFrom m.nodes ix = m.nodes[ix] :: (m.nodes.drop (ix + 1) ++ m.nodes.take ix) := by
    rw [roundFrom, List.drop_eq_getElem_cons hlt, List.cons_append]
  rw [hround, List.getElem?_eq_getElem hlt]
  unfold keyRing at h
  rw [hix] at h
  dsimp only at h
  rw [List.getD_eq_getElem _ _ hlt] at h
  split at h
  · cases h
    exact ⟨rfl, firstMet_singleton _⟩
  · split at h
    · cases h
    · rw [walk_eq_collect hlt le_rfl, round_eq hlt] at h
      refine ⟨?_, collect_round h⟩
      obtain ⟨more, rfl⟩ := collect_append h
      rfl

theorem hosts_pos (hne : m.nodes ≠ []) : 0 < hosts m.nodes := by
  obtain ⟨n, nodes, hn⟩ := List.exists_cons_of_ne_nil hne
  rw [hosts, hn, List.map_cons, List.eraseDups_cons, List.length_cons]
  exact Nat.succ_pos _

/-- `keyRing` returns on every ring whose `nodeNum` is the number of its addresses: it starts at
the first node with a token above `t`, or at the first node, and answers with as many nodes as
were asked for, at least one and at most one for each address, in the order in which their
addresses are met clockwise. -/
theorem keyRing_spec (hs : Sorted m.nodes) (hne : m.nodes ≠ []) (hnum : m.nodeNum = hosts m.nodes)
    (t : UInt32) (replica : Nat) :
    ∃ ix ring, m.ownerOf t = some ix ∧ Owns m.nodes t ix ∧ m.keyRing t replica = some ring ∧
      ring.head? = m.nodes[ix]? ∧ (ring.length : Int) = max 1 (min m.nodeNum replica) ∧
      (ring.map (·.ip)).Nodup ∧ FirstMet (roundFrom m.nodes ix) ring := by
  obtain ⟨ix, hix, hlt, -⟩ := exists_ownerOf t hs hne
  obtain ⟨ring, hring, hlen⟩ : ∃ ring, m.keyRing t replica = some ring ∧
      (ring.length : Int) = max 1 (min m.nodeNum replica) := by
    have hfull : (m.full t).length = hosts m.nodes := by rw [full_eq_met hs, met_length]
    have hpos := hosts_pos hne
    by_cases hr : replica = 0
    · refine ⟨[m.nodes.getD ix default], ?_, ?_⟩
      · unfold keyRing
        rw [hix]
        simp [hr]
      · simp only [List.length_singleton]
        omega
    · obtain ⟨ring, hring, hips⟩ := keyRing_full hs hne hnum (Nat.pos_of_ne_zero hr) t
      have hl := congrArg List.length hips
      rw [List.length_map, List.length_take, hfull] at hl
      exact ⟨ring, hring, by omega⟩
  obtain ⟨hhead, hmet⟩ := keyRing_firstMet hix hlt hring
  exact ⟨ix, ring, hix, ownerOf_owns hs hix hne, hring, hhead, hlen, (keyRing_ips hring).1, hmet⟩

def tiedRing : NodeRing :=
  ⟨[("10.0.0.1", 10), ("10.0.0.2", 20), ("10.0.0.1", 20), ("10.0.0.3", 30)].map fun p =>
    ⟨p.1, p.2, "", p.1, "", 0⟩, 3⟩

theorem keyRing_spec_tied :
    Sorted tiedRing.nodes ∧ ∃ ring, tiedRing.keyRing 10 2 = some ring ∧ ring.length = 2 ∧
      FirstMet (roundFrom tiedRing.nodes 1) ring := by
  have hs : Sorted tiedRing.nodes := by
    unfold Sorted
    decide +kernel
  obtain ⟨ix, ring, hix, -, hring, -, hlen, -, hmet⟩ :=
    keyRing_spec hs (by decide +kernel) (by decide +kernel) 10 2
  have howner : tiedRing.ownerOf 10 = some 1 := by decide +kernel
  obtain rfl : ix = 1 := Option.some.inj (hix.symm.trans howner)
  have hnum : tiedRing.nodeNum = 3 := rfl
  exact ⟨hs, ring, hring, by omega, hmet⟩

end Tarantula.NodeRing
