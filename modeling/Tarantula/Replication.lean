import Tarantula.OptimisticLock
import Tarantula.Writes

/-! The calls of one write to the replicas of a record. The in-process call leaves its
header to the calls after it, so the replicas before and after it may end apart. -/

namespace Tarantula

/-- What the replicas end with if every call stores `v₁` until a call is shared with the
request, and `v₂` after it. -/
def outcomes {α β : Type*} (shared : α → Bool) (v₁ v₂ : β) : List α → List β
  | [] => []
  | n :: nodes => v₁ :: if shared n then nodes.map fun _ => v₂ else outcomes shared v₁ v₂ nodes

section Outcomes

variable {α β : Type*} {shared : α → Bool} {v₁ v₂ : β}

theorem outcomes_eq_map {nodes : List α}
    (h : v₁ = v₂ ∨ ∀ n ∈ nodes.dropLast, shared n = false) :
    outcomes shared v₁ v₂ nodes = nodes.map fun _ => v₁ := by
  induction nodes with
  | nil => rfl
  | cons n nodes ih =>
    cases nodes with
    | nil => simp [outcomes]
    | cons n' nodes =>
      have ih' : outcomes shared v₁ v₂ (n' :: nodes) = (n' :: nodes).map fun _ => v₁ := by
        refine ih (h.imp_right fun h m hm => h m ?_)
        rw [List.dropLast_cons_cons]
        exact List.mem_cons_of_mem _ hm
      rw [outcomes, ih']
      split
      · next hn =>
        rcases h with rfl | h
        · rfl
        · simp [h n (by simp [List.dropLast_cons_cons])] at hn
      · rfl

theorem mem_outcomes (v₁ v₂ : β) {nodes : List α} (h : ∃ n ∈ nodes.dropLast, shared n = true) :
    v₁ ∈ outcomes shared v₁ v₂ nodes ∧ v₂ ∈ outcomes shared v₁ v₂ nodes := by
  induction nodes with
  | nil => simp at h
  | cons n nodes ih =>
    cases nodes with
    | nil => simp at h
    | cons n' nodes =>
      refine ⟨List.mem_cons_self .., ?_⟩
      rw [outcomes]
      split
      · simp
      · next hn =>
        obtain ⟨m, hm, hs⟩ := h
        rw [List.dropLast_cons_cons] at hm
        rcases List.mem_cons.mp hm with rfl | hm
        · exact absurd hs hn
        · exact List.mem_cons_of_mem _ (ih ⟨m, hm, hs⟩).2

theorem outcomes_agree_iff {nodes : List α} :
    (∃ v, ∀ u ∈ outcomes shared v₁ v₂ nodes, u = v) ↔
      v₁ = v₂ ∨ ∀ n ∈ nodes.dropLast, shared n = false := by
  constructor
  · rintro ⟨v, hv⟩
    by_cases hs : ∃ n ∈ nodes.dropLast, shared n = true
    · obtain ⟨h₁, h₂⟩ := mem_outcomes v₁ v₂ hs
      exact .inl ((hv v₁ h₁).trans (hv v₂ h₂).symm)
    · push Not at hs
      exact .inr fun n hn => by simpa using hs n hn
  · intro h
    rw [outcomes_eq_map h]
    exact ⟨v₁, by simp⟩

theorem forall₂_all_iff {R : α → β → Prop} (hu : ∀ a u u', R a u → R a u' → u = u') {l : List α}
    {l' : List β} (hf : List.Forall₂ R l l') (u : β) : (∀ a ∈ l, R a u) ↔ ∀ u' ∈ l', u' = u := by
  induction hf with
  | nil => simp
  | @cons a u' l l' h _ ih =>
    rw [List.forall_mem_cons, List.forall_mem_cons, ih]
    refine and_congr_left fun _ => ⟨hu a u' u h, ?_⟩
    rintro rfl
    exact h

end Outcomes

namespace Env

/-- A call whose handler runs on the target, in-process on the header of the request where
it is `shared`. -/
structure Serves (env : Env) (handler : Handler) (req : Request) (shared : Node → Bool)
    (call : Call) : Prop where
  world : ∀ i j n w, (call i j n w).1 =
    let s := handler (w.stores n.rpcEndpoint) (env.clock i j) (req.withHeader w.header)
    ⟨Function.update w.stores n.rpcEndpoint s.db, if shared n then s.header else w.header⟩
  reply : ∀ i j n w resp, (call i j n w).2.resp = some resp →
    (handler (w.stores n.rpcEndpoint) (env.clock i j) (req.withHeader w.header)).reply.resp = some resp
  error : ∀ i j n w, (call i j n w).2.err =
    (handler (w.stores n.rpcEndpoint) (env.clock i j) (req.withHeader w.header)).reply.err

section Serves

variable {env : Env} {handler : Handler} {noConn : Fail} {req : Request}

theorem remote_serves (hup : ∀ i j, env.link i j = .up) :
    env.Serves handler req (fun _ => false) (env.remote handler noConn req) := by
  refine ⟨fun i j n w => ?_, fun i j n w resp h => ?_, fun i j n w => ?_⟩
  · simp [remote, hup]
  · simp only [remote, hup] at h
    split at h
    · cases h
    · exact h
  · simp only [remote, hup]
    split <;> rfl

theorem client_serves (hup : ∀ i j, env.link i j = .up) :
    env.Serves handler req (fun n => n.rpcEndpoint = env.self) (env.client handler noConn req) := by
  have hr : env.Serves handler req _ (env.remote handler noConn req) := remote_serves hup
  refine ⟨fun i j n w => ?_, fun i j n w resp h => ?_, fun i j n w => ?_⟩
  · by_cases hs : n.rpcEndpoint = env.self
    · simp [client, hs]
    · rw [client, if_neg hs, hr.world]
      simp [hs]
  · by_cases hs : n.rpcEndpoint = env.self
    · rw [client, if_pos hs, ← hs] at h
      exact h
    · rw [client, if_neg hs] at h
      exact hr.reply i j n w resp h
  · by_cases hs : n.rpcEndpoint = env.self
    · simp [client, hs]
    · rw [client, if_neg hs]
      exact hr.error i j n w

end Serves

section Calls

variable {env : Env} {handler : Handler} {req : Request} {shared : Node → Bool} {call : Call}
  {a : Address} {v : Option Version} {i : Nat}

/-- With this header the handler takes the version `v` to `v'`. -/
def Takes (handler : Handler) (req : Request) (a : Address) (v v' : Option Version) (h : Header) : Prop :=
  ∀ db now, Holds a db v → Holds a (handler db now (req.withHeader h)).db v'

theorem callEach_stores (hs : env.Serves handler req shared call) {ep : String} {nodes : List Node}
    (hep : ep ∉ nodes.map (·.rpcEndpoint)) (j : Nat) (w : World) :
    (callEach call i j nodes w).stores ep = w.stores ep := by
  induction nodes generalizing j w with
  | nil => rfl
  | cons n nodes ih =>
    rw [List.map_cons, List.mem_cons, not_or] at hep
    rw [callEach, ih hep.2, hs.world]
    exact Function.update_of_ne hep.1 _ _

theorem holds_after_call (hs : env.Serves handler req shared call) {m : Node} {nodes : List Node}
    (hm : m.rpcEndpoint ∉ nodes.map (·.rpcEndpoint)) {w : World}
    (hv : ∀ n ∈ nodes, Holds a (w.stores n.rpcEndpoint) v) (j : Nat) :
    ∀ n ∈ nodes, Holds a ((call i j m w).1.stores n.rpcEndpoint) v := by
  intro n h
  have hne : n.rpcEndpoint ≠ m.rpcEndpoint := fun he => hm (he ▸ List.mem_map_of_mem h)
  rw [hs.world]
  simp only [Function.update_of_ne hne]
  exact hv n h

theorem callEach_unshared (hs : env.Serves handler req shared call) {nodes : List Node}
    (hn : ∀ n ∈ nodes, shared n = false) (hd : (nodes.map (·.rpcEndpoint)).Nodup) {v' : Option Version}
    {w : World} (ht : Takes handler req a v v' w.header)
    (hv : ∀ n ∈ nodes, Holds a (w.stores n.rpcEndpoint) v) (j : Nat) :
    ∀ n ∈ nodes, Holds a ((callEach call i j nodes w).stores n.rpcEndpoint) v' := by
  induction nodes generalizing j w with
  | nil => simp
  | cons m nodes ih =>
    rw [List.map_cons, List.nodup_cons] at hd
    have hw := hs.world i j m w
    rw [hn m (List.mem_cons_self ..)] at hw
    intro n hmem
    rw [callEach]
    rcases List.mem_cons.mp hmem with rfl | hmem
    · rw [callEach_stores hs hd.1, hw]
      simp only [Function.update_self]
      exact ht _ _ (hv n (List.mem_cons_self ..))
    · have hrest := holds_after_call (i := i) hs hd.1 (fun n h => hv n (List.mem_cons_of_mem _ h)) j
      refine ih (fun n h => hn n (List.mem_cons_of_mem _ h)) hd.2 ?_ hrest (j + 1) n hmem
      rw [hw]
      exact ht

/-- The replicas end with `outcomes`: `v₁` for the header of the request and `v₂` for what
a shared call leaves in it. -/
theorem callEach_outcomes (hs : env.Serves handler req shared call)
    (hone : ∀ n n', shared n = true → shared n' = true → n.rpcEndpoint = n'.rpcEndpoint)
    {nodes : List Node} (hd : (nodes.map (·.rpcEndpoint)).Nodup) {v₁ v₂ : Option Version} {w : World}
    (h₁ : Takes handler req a v v₁ w.header)
    (h₂ : ∀ db now, Holds a db v →
      Takes handler req a v v₂ (handler db now (req.withHeader w.header)).header)
    (hv : ∀ n ∈ nodes, Holds a (w.stores n.rpcEndpoint) v) (j : Nat) :
    List.Forall₂ (fun (n : Node) u => Holds a ((callEach call i j nodes w).stores n.rpcEndpoint) u)
      nodes (outcomes shared v₁ v₂ nodes) := by
  induction nodes generalizing j w with
  | nil => exact .nil
  | cons m nodes ih =>
    rw [List.map_cons, List.nodup_cons] at hd
    have hw := hs.world i j m w
    have hfirst := hv m (List.mem_cons_self ..)
    have hrest := holds_after_call (i := i) hs hd.1 (fun n h => hv n (List.mem_cons_of_mem _ h)) j
    rw [outcomes]
    refine .cons ?_ ?_
    · rw [callEach, callEach_stores hs hd.1, hw]
      simp only [Function.update_self]
      exact h₁ _ _ hfirst
    · rw [callEach]
      cases hm : shared m with
      | true =>
        rw [hm] at hw
        rw [if_pos rfl, List.forall₂_map_right_iff, List.forall₂_same]
        refine callEach_unshared hs (fun n h => ?_) hd.2 ?_ hrest (j + 1)
        · rw [Bool.eq_false_iff]
          exact fun hn => hd.1 (hone n m hn hm ▸ List.mem_map_of_mem h)
        · rw [hw]
          exact h₂ _ _ hfirst
      | false =>
        rw [hm] at hw
        rw [if_neg (by simp)]
        refine ih hd.2 ?_ (fun db now hdb => ?_) hrest (j + 1)
        · rw [hw]
          exact h₁
        · rw [hw]
          exact h₂ db now hdb

theorem callEach_agree_iff (hs : env.Serves handler req shared call)
    (hone : ∀ n n', shared n = true → shared n' = true → n.rpcEndpoint = n'.rpcEndpoint)
    {nodes : List Node} (hd : (nodes.map (·.rpcEndpoint)).Nodup) {v₁ v₂ : Option Version} {w : World}
    (h₁ : Takes handler req a v v₁ w.header)
    (h₂ : ∀ db now, Holds a db v →
      Takes handler req a v v₂ (handler db now (req.withHeader w.header)).header)
    (hv : ∀ n ∈ nodes, Holds a (w.stores n.rpcEndpoint) v) (j : Nat) :
    (∃ u, ∀ n ∈ nodes, Holds a ((callEach call i j nodes w).stores n.rpcEndpoint) u) ↔
      v₁ = v₂ ∨ ∀ n ∈ nodes.dropLast, shared n = false := by
  have hf := callEach_outcomes (i := i) hs hone hd h₁ h₂ hv j
  rw [← outcomes_agree_iff]
  exact exists_congr fun u => forall₂_all_iff (fun _ _ _ h h' => h.unique h') hf u

end Calls

end Env

end Tarantula
