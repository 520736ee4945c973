import Tarantula.ExtMap

/-! Settings in layers: a value that is not set in one layer is taken from the next one, and the
entries of a map that are missing in one layer are filled in from the next one. -/

namespace Tarantula

section First

variable {α : Type} {unset : α → Bool}

def firstSet (unset : α → Bool) (a b : α) : α := if unset a then b else a

theorem firstSet_assoc (unset : α → Bool) (a b c : α) :
    firstSet unset (firstSet unset a b) c = firstSet unset a (firstSet unset b c) := by
  unfold firstSet
  by_cases ha : unset a = true <;> simp [ha]

theorem firstSet_absorb (unset : α → Bool) (a b : α) :
    firstSet unset (firstSet unset a b) b = firstSet unset a b := by
  unfold firstSet
  by_cases ha : unset a = true <;> simp [ha]

theorem firstSet_of_set {a : α} (ha : unset a = false) (b : α) : firstSet unset a b = a := by
  simp [firstSet, ha]

theorem firstSet_of_ne [BEq α] [LawfulBEq α] {e a : α} (ha : a ≠ e) (b : α) : firstSet (· == e) a b = a := by
  apply firstSet_of_set
  simpa using ha

theorem firstSet_of_ne_nil {a : List α} (ha : a ≠ []) (b : List α) : firstSet (·.isEmpty) a b = a := by
  apply firstSet_of_set
  simpa using ha

theorem firstSet_of_ne_none {a : Option α} (ha : a ≠ none) (b : Option α) : firstSet (·.isNone) a b = a := by
  apply firstSet_of_set
  cases a with
  | none => exact absurd rfl ha
  | some => rfl

end First

section Fill

variable {κ β : Type} [Ord κ] [Std.TransOrd κ] [Std.LawfulEqOrd κ] [DecidableEq κ]

/-- The loop over the entries of the next layer. -/
def fillFrom (m : Std.ExtTreeMap κ β) : List (κ × β) → Std.ExtTreeMap κ β
  | [] => m
  | (k, v) :: entries => fillFrom (if k ∈ m then m else m.insert k v) entries

/-- The entries of a map with those of the next one. The keys of a map are distinct, so that the order
of the loop does not matter. -/
def fill (m next : Std.ExtTreeMap κ β) : Std.ExtTreeMap κ β := fillFrom m next.toList

theorem getElem?_fillFrom (m : Std.ExtTreeMap κ β) (entries : List (κ × β)) (a : κ) :
    (fillFrom m entries)[a]? = m[a]?.or ((entries.find? fun e => e.1 = a).map (·.2)) := by
  induction entries generalizing m with
  | nil => simp [fillFrom]
  | cons e entries ih =>
    obtain ⟨k, v⟩ := e
    rw [fillFrom, ih, List.find?_cons]
    by_cases hm : k ∈ m
    · rw [if_pos hm]
      by_cases hk : k = a
      · obtain ⟨w, hw⟩ := ExtMap.getElem?_of_mem hm
        rw [← hk, hw]
        rfl
      · simp [hk]
    · rw [if_neg hm, ExtMap.getElem?_insert]
      by_cases hk : k = a
      · have hnone : m[k]? = none := by
          rwa [Std.ExtTreeMap.mem_iff_isSome_getElem?, Option.not_isSome_iff_eq_none] at hm
        rw [← hk, hnone]
        simp
      · simp [hk]

theorem find?_toList (m : Std.ExtTreeMap κ β) (a : κ) :
    (m.toList.find? fun e => e.1 = a).map (·.2) = m[a]? := by
  cases hf : m.toList.find? fun e => e.1 = a with
  | none =>
    cases hm : m[a]? with
    | none => rfl
    | some v =>
      have hmem := Std.ExtTreeMap.mem_toList_iff_getElem?_eq_some.mpr hm
      have hnone := List.find?_eq_none.mp hf (a, v) hmem
      simp at hnone
  | some e =>
    obtain ⟨k, v⟩ := e
    have hk : k = a := by simpa using List.find?_some hf
    have hmem := Std.ExtTreeMap.mem_toList_iff_getElem?_eq_some.mp (List.mem_of_find?_eq_some hf)
    rw [← hk, hmem]
    rfl

theorem getElem?_fill (m next : Std.ExtTreeMap κ β) (a : κ) : (fill m next)[a]? = m[a]?.or next[a]? := by
  rw [fill, getElem?_fillFrom, find?_toList]

theorem fill_assoc (l m n : Std.ExtTreeMap κ β) : fill (fill l m) n = fill l (fill m n) := by
  apply Std.ExtTreeMap.ext_getElem?
  intro a
  rw [getElem?_fill, getElem?_fill, getElem?_fill, getElem?_fill, Option.or_assoc]

theorem fill_absorb (m n : Std.ExtTreeMap κ β) : fill (fill m n) n = fill m n := by
  apply Std.ExtTreeMap.ext_getElem?
  intro a
  rw [getElem?_fill, getElem?_fill, Option.or_assoc, Option.or_self]

theorem getElem?_fill_of_some {m : Std.ExtTreeMap κ β} {a : κ} {v : β} (h : m[a]? = some v)
    (next : Std.ExtTreeMap κ β) : (fill m next)[a]? = some v := by
  rw [getElem?_fill, h]
  rfl

end Fill

end Tarantula
