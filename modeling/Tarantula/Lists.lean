import Mathlib.Data.List.Count
import Mathlib.Data.List.Forall2
import Mathlib.Data.List.Perm.Basic

/-! Lists by position, and the list of an optional element. -/

namespace Tarantula

variable {α β : Type*}

theorem filter_eraseIdx {l : List α} {p : α → Bool} {i : Nat} {a : α} (ha : l[i]? = some a)
    (hp : p a = false) : (l.eraseIdx i).filter p = l.filter p := by
  obtain ⟨hi, rfl⟩ := List.getElem?_eq_some_iff.mp ha
  calc (l.eraseIdx i).filter p = (l.take i ++ l[i] :: l.drop (i + 1)).filter p := by
        rw [List.eraseIdx_eq_take_drop_succ, List.filter_append, List.filter_append,
          List.filter_cons_of_neg (by simp [hp])]
    _ = l.filter p := by rw [List.getElem_cons_drop, List.take_append_drop]

theorem not_mem_of_eraseIdx {l : List α} {p : α → Bool} {i : Nat} {a : α}
    (h : (l.filter p).length ≤ 1) (ha : l[i]? = some a) (hp : p a = true) :
    ∀ r ∈ l.eraseIdx i, p r = false := by
  obtain ⟨hi, rfl⟩ := List.getElem?_eq_some_iff.mp ha
  have hperm := ((List.getElem_cons_eraseIdx_perm hi).filter p).length_eq
  rw [List.filter_cons_of_pos hp, List.length_cons] at hperm
  have hzero : (l.eraseIdx i).filter p = [] := List.eq_nil_of_length_eq_zero (by omega)
  intro r hr
  simpa using List.filter_eq_nil_iff.mp hzero r hr

theorem mem_cons_eraseIdx {l : List α} {i : Nat} {a x : α} (h : l[i]? = some a) :
    x ∈ l ↔ x = a ∨ x ∈ l.eraseIdx i := by
  obtain ⟨hi, rfl⟩ := List.getElem?_eq_some_iff.mp h
  have hp := List.getElem_cons_eraseIdx_perm hi
  rw [← hp.mem_iff, List.mem_cons]

theorem modify_last (l : List α) (x : α) (f : α → α) : (l ++ [x]).modify l.length f = l ++ [f x] := by
  induction l with
  | nil => rfl
  | cons a l ih => rw [List.cons_append, List.length_cons, List.modify_succ_cons, ih, List.cons_append]

theorem filterMap_range' (l : List α) (i k : Nat) :
    (List.range' i k).filterMap (fun j => l[j]?) = (l.drop i).take k := by
  induction k generalizing i with
  | zero => simp
  | succ k ih =>
    rw [List.range'_succ, List.filterMap_cons, ih]
    cases hi : l[i]? with
    | none =>
      have hle := List.getElem?_eq_none_iff.mp hi
      rw [List.drop_of_length_le (by omega), List.drop_of_length_le hle, List.take_nil, List.take_nil]
    | some x =>
      obtain ⟨hlt, rfl⟩ := List.getElem?_eq_some_iff.mp hi
      rw [List.drop_eq_getElem_cons hlt, List.take_succ_cons]

theorem range_map_getElem? (l : List α) : (List.range l.length).map (l[·]?) = l.map some := by
  refine List.ext_getElem (by simp) fun i hi hi' => ?_
  rw [List.length_map] at hi'
  simp [hi']

theorem forall₂_mem_left {R : α → β → Prop} {l : List α} {m : List β}
    (h : List.Forall₂ R l m) {a : α} (ha : a ∈ l) : ∃ b ∈ m, R a b := by
  induction h with
  | nil => cases ha
  | cons hab _ ih =>
    rcases List.mem_cons.mp ha with rfl | ha
    · exact ⟨_, List.mem_cons_self .., hab⟩
    · obtain ⟨b, hb, hr⟩ := ih ha
      exact ⟨b, List.mem_cons_of_mem _ hb, hr⟩

theorem reverse_toList (o : Option α) : o.toList.reverse = o.toList := by
  cases o <;> rfl

theorem toList_head? {l : List α} (h : l.length ≤ 1) : l.head?.toList = l := by
  match l, h with
  | [], _ => rfl
  | [a], _ => rfl

theorem count_toList [BEq α] [LawfulBEq α] (o : Option α) (x : α) [Decidable (o = some x)] :
    o.toList.count x = if o = some x then 1 else 0 := by
  cases o with
  | none => simp
  | some y =>
    rw [Option.toList_some, List.count_singleton]
    exact if_congr (beq_iff_eq.trans Option.some_inj.symm) rfl rfl

end Tarantula
