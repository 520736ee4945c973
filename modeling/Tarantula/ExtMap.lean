import Std.Data.ExtTreeMap

/-! Maps with lawfully ordered keys, as the Go maps of a process and the rows of a
store: extensional tree maps, with the loops that insert or delete one entry for
each element of a list. -/

namespace Tarantula

abbrev IdMap (β : Type) := Std.ExtTreeMap Nat β

namespace ExtMap

section Mem

variable {κ β : Type} [Ord κ] [Std.TransOrd κ] {m : Std.ExtTreeMap κ β} {k a : κ} {v w : β}

theorem mem_of_getElem? (h : m[k]? = some v) : k ∈ m := by
  rw [Std.ExtTreeMap.mem_iff_isSome_getElem?, h]
  rfl

theorem not_mem_of_getElem? (h : m[k]? = none) : k ∉ m := by
  rw [Std.ExtTreeMap.mem_iff_isSome_getElem?, h]
  exact Bool.false_ne_true

theorem getElem?_of_mem (h : k ∈ m) : ∃ v, m[k]? = some v :=
  Option.isSome_iff_exists.mp (Std.ExtTreeMap.mem_iff_isSome_getElem?.mp h)

theorem mem_insert [Std.LawfulEqOrd κ] : a ∈ m.insert k v ↔ a = k ∨ a ∈ m := by
  rw [Std.ExtTreeMap.mem_insert, Std.compare_eq_iff_eq, eq_comm]

theorem mem_insert_of_getElem? [Std.LawfulEqOrd κ] (h : m[k]? = some v) : a ∈ m.insert k w ↔ a ∈ m := by
  rw [mem_insert]
  constructor
  · rintro (rfl | ha)
    · exact mem_of_getElem? h
    · exact ha
  · exact .inr

end Mem

variable {κ α β : Type} [Ord κ] [Std.TransOrd κ] [Std.LawfulEqOrd κ] [DecidableEq κ]

theorem getElem?_insert (m : Std.ExtTreeMap κ β) (k a : κ) (v : β) :
    (m.insert k v)[a]? = if k = a then some v else m[a]? := by
  simp only [Std.ExtTreeMap.getElem?_insert, Std.compare_eq_iff_eq]

theorem getElem?_erase (m : Std.ExtTreeMap κ β) (k a : κ) :
    (m.erase k)[a]? = if k = a then none else m[a]? := by
  simp only [Std.ExtTreeMap.getElem?_erase, Std.compare_eq_iff_eq]

theorem insert_self {m : Std.ExtTreeMap κ β} {k : κ} {v : β} (h : m[k]? = some v) :
    m.insert k v = m := by
  apply Std.ExtTreeMap.ext_getElem?
  intro a
  rw [getElem?_insert]
  split
  · next hk => rw [← hk, h]
  · rfl

/-- One entry for each element, made from its position and the element. -/
def insertEach (key : α → κ) (f : Nat → α → β) :
    List α → Nat → Std.ExtTreeMap κ β → Std.ExtTreeMap κ β
  | [], _, m => m
  | a :: as, i, m => insertEach key f as (i + 1) (m.insert (key a) (f i a))

theorem getElem?_insertEach (key : α → κ) (f : Nat → α → β) (as : List α) (i : Nat)
    (m : Std.ExtTreeMap κ β) (k : κ) :
    (∃ n a, as[n]? = some a ∧ key a = k ∧ (insertEach key f as i m)[k]? = some (f (i + n) a)) ∨
      (k ∉ as.map key ∧ (insertEach key f as i m)[k]? = m[k]?) := by
  induction as generalizing i m with
  | nil => exact .inr ⟨by simp, rfl⟩
  | cons a as ih =>
    rcases ih (i + 1) (m.insert (key a) (f i a)) with ⟨n, b, hb, hk, he⟩ | ⟨hk, he⟩
    · refine .inl ⟨n + 1, b, hb, hk, ?_⟩
      rw [insertEach, he, show i + 1 + n = i + (n + 1) by omega]
    · rw [getElem?_insert] at he
      split at he
      · next ha => exact .inl ⟨0, a, rfl, ha, he⟩
      · next ha =>
        refine .inr ⟨?_, he⟩
        simp only [List.map_cons, List.mem_cons, not_or]
        exact ⟨fun h => ha h.symm, hk⟩

def eraseEach (key : α → κ) (as : List α) (m : Std.ExtTreeMap κ β) : Std.ExtTreeMap κ β :=
  as.foldl (fun m a => m.erase (key a)) m

theorem getElem?_eraseEach (key : α → κ) (as : List α) (m : Std.ExtTreeMap κ β) (k : κ) :
    (eraseEach key as m)[k]? = if k ∈ as.map key then none else m[k]? := by
  induction as generalizing m with
  | nil => simp [eraseEach]
  | cons a as ih =>
    have hh := ih (m.erase (key a))
    simp only [eraseEach, List.foldl_cons] at hh ⊢
    rw [hh, getElem?_erase]
    by_cases ha : key a = k
    · simp [ha]
    · have ha' : k ≠ key a := fun h => ha h.symm
      simp [ha, ha']

end ExtMap

namespace ExtMap

variable {κ ι β : Type} [Ord κ] [Std.TransOrd κ] [Ord ι] [Std.TransOrd ι]
  {m : Std.ExtTreeMap κ (Std.ExtTreeMap ι β)} {k : κ} {v : Std.ExtTreeMap ι β} {b : β}

/-- What a map of maps holds at an outer and an inner key. -/
def slot (m : Std.ExtTreeMap κ (Std.ExtTreeMap ι β)) (k : κ) (i : ι) : Option β :=
  m[k]?.bind (·[i]?)

theorem slot_of_getElem? (h : m[k]? = some v) (i : ι) : slot m k i = v[i]? := by
  unfold slot
  rw [h]
  rfl

theorem slot_of_missing (h : m[k]? = none) (i : ι) : slot m k i = none := by
  unfold slot
  rw [h]
  rfl

def values (m : Std.ExtTreeMap κ (Std.ExtTreeMap ι β)) : List β :=
  m.toList.flatMap fun (_, v) => v.toList.map (·.2)

theorem mem_values [Std.LawfulEqOrd κ] [Std.LawfulEqOrd ι] :
    b ∈ values m ↔ ∃ k i, slot m k i = some b := by
  simp only [values, slot, List.mem_flatMap, List.mem_map, Prod.exists, Option.bind_eq_some_iff,
    Std.ExtTreeMap.mem_toList_iff_getElem?_eq_some, exists_eq_right]
  constructor
  · rintro ⟨k, v, hv, i, hi⟩
    exact ⟨k, i, v, hv, hi⟩
  · rintro ⟨k, i, v, hv, hi⟩
    exact ⟨k, v, hv, i, hi⟩

theorem exists_getElem? [Std.LawfulEqOrd ι] {v : Std.ExtTreeMap ι β} (h : v ≠ ∅) :
    ∃ (i : ι) (b : β), v[i]? = some b := by
  apply Classical.byContradiction
  intro hnone
  apply h
  apply Std.ExtTreeMap.ext_getElem?
  intro i
  rw [Std.ExtTreeMap.getElem?_empty, Option.eq_none_iff_forall_ne_some]
  exact fun b hb => hnone ⟨i, b, hb⟩

theorem ext_slot [Std.LawfulEqOrd κ] [Std.LawfulEqOrd ι] {m m' : Std.ExtTreeMap κ (Std.ExtTreeMap ι β)}
    (h : ∀ (k : κ) (v : Std.ExtTreeMap ι β), m[k]? = some v → v ≠ ∅)
    (h' : ∀ (k : κ) (v : Std.ExtTreeMap ι β), m'[k]? = some v → v ≠ ∅)
    (hs : ∀ k i, slot m k i = slot m' k i) : m = m' := by
  apply Std.ExtTreeMap.ext_getElem?
  intro k
  cases hm : m[k]? with
  | none =>
    cases hm' : m'[k]? with
    | none => rfl
    | some v' =>
      obtain ⟨i, b, hb⟩ := exists_getElem? (h' k v' hm')
      have hi := hs k i
      rw [slot_of_missing hm, slot_of_getElem? hm', hb] at hi
      cases hi
  | some v =>
    cases hm' : m'[k]? with
    | none =>
      obtain ⟨i, b, hb⟩ := exists_getElem? (h k v hm)
      have hi := hs k i
      rw [slot_of_missing hm', slot_of_getElem? hm, hb] at hi
      cases hi
    | some v' =>
      have hv : v = v' := by
        apply Std.ExtTreeMap.ext_getElem?
        intro i
        rw [← slot_of_getElem? hm, ← slot_of_getElem? hm', hs]
      rw [hv]

variable [Std.LawfulEqOrd κ] [DecidableEq κ]

theorem slot_insert (m : Std.ExtTreeMap κ (Std.ExtTreeMap ι β)) (k a : κ) (v : Std.ExtTreeMap ι β)
    (i : ι) : slot (m.insert k v) a i = if k = a then v[i]? else slot m a i := by
  unfold slot
  rw [getElem?_insert]
  split <;> rfl

theorem slot_erase (m : Std.ExtTreeMap κ (Std.ExtTreeMap ι β)) (k a : κ) (i : ι) :
    slot (m.erase k) a i = if k = a then none else slot m a i := by
  unfold slot
  rw [getElem?_erase]
  split <;> rfl

end ExtMap

end Tarantula
