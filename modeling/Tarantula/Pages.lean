import Mathlib.Data.List.Basic
import Mathlib.Algebra.Group.Nat.Defs

/-! Pages of a filtered list. A page skips a number of elements, whether the filter accepts them
or not, and takes a number of accepted ones. -/

namespace Tarantula

variable {α : Type*} {p : α → Bool} {size count : Nat} {l : List α}

def page (p : α → Bool) (l : List α) (size offset : Nat) : List α := ((l.drop offset).filter p).take size

/-- The first `count` pages, each of which skips one block of `size` elements more. -/
def pages (p : α → Bool) (l : List α) (size count : Nat) : List α :=
  (List.range count).flatMap fun k => page p l size (k * size)

/-- What is accepted behind a rejected element is in the same block. -/
def Aligned (p : α → Bool) (size : Nat) (l : List α) : Prop :=
  ∀ j (hj : j < l.length), ∀ i (hi : i < j), p l[i] = false → p l[j] = true → i / size = j / size

instance (p : α → Bool) (size : Nat) (l : List α) : Decidable (Aligned p size l) :=
  inferInstanceAs (Decidable (∀ j (hj : j < l.length), ∀ i (hi : i < j), p l[i] = false → p l[j] = true →
    i / size = j / size))

/-- Either all of the first block is accepted or nothing behind it is. -/
theorem aligned_iff (hs : 0 < size) : Aligned p size l ↔
    ((∀ a ∈ l.take size, p a = true) ∨ ∀ b ∈ l.drop size, p b = false) ∧ Aligned p size (l.drop size) := by
  constructor
  · intro h
    refine ⟨?_, ?_⟩
    · by_cases hall : ∀ a ∈ l.take size, p a = true
      · exact .inl hall
      · right
        simp only [not_forall] at hall
        obtain ⟨a, ha, hpa⟩ := hall
        intro b hb
        obtain ⟨i, hi, rfl⟩ := List.mem_iff_getElem.mp ha
        obtain ⟨j, hj, rfl⟩ := List.mem_iff_getElem.mp hb
        rw [List.length_take] at hi
        rw [List.length_drop] at hj
        rw [List.getElem_take, Bool.not_eq_true] at hpa
        rw [List.getElem_drop]
        by_contra hpb
        have hdiv := h (size + j) (by omega) i (by omega) hpa (by simpa using hpb)
        rw [Nat.div_eq_of_lt (by omega), Nat.add_div_left j hs] at hdiv
        exact Nat.succ_ne_zero _ hdiv.symm
    · intro j hj i hi hpi hpj
      rw [List.length_drop] at hj
      rw [List.getElem_drop] at hpi hpj
      have hdiv := h (size + j) (by omega) (size + i) (by omega) hpi hpj
      rw [Nat.add_div_left i hs, Nat.add_div_left j hs] at hdiv
      exact Nat.succ.inj hdiv
  · rintro ⟨hfirst, hrest⟩ j hj i hi hpi hpj
    by_cases hjs : j < size
    · rw [Nat.div_eq_of_lt hjs, Nat.div_eq_of_lt (by omega)]
    · obtain ⟨j, rfl⟩ := Nat.exists_eq_add_of_le (Nat.le_of_not_lt hjs)
      by_cases his : i < size
      · rcases hfirst with hfirst | hfirst
        · have ha := hfirst l[i] (List.mem_take_iff_getElem.mpr ⟨i, by omega, rfl⟩)
          simp [ha] at hpi
        · have hb := hfirst l[size + j] (List.mem_drop_iff_getElem.mpr ⟨j, by omega, rfl⟩)
          simp [hb] at hpj
      · obtain ⟨i, rfl⟩ := Nat.exists_eq_add_of_le (Nat.le_of_not_lt his)
        have hdiv := hrest j (by rw [List.length_drop]; omega) i (by omega)
          (by rw [List.getElem_drop]; exact hpi) (by rw [List.getElem_drop]; exact hpj)
        rw [Nat.add_div_left i hs, Nat.add_div_left j hs, hdiv]

theorem pages_succ (p : α → Bool) (l : List α) (size count : Nat) :
    pages p l size (count + 1) = (l.filter p).take size ++ pages p (l.drop size) size count := by
  have hdrop : ∀ k, l.drop ((k + 1) * size) = (l.drop size).drop (k * size) := by
    intro k
    rw [List.drop_drop, Nat.succ_mul, Nat.add_comm]
  simp only [pages, page, List.range_succ_eq_map, List.flatMap_cons, List.flatMap_map, Nat.zero_mul,
    List.drop_zero, Nat.succ_eq_add_one, hdrop]

theorem filter_split (p : α → Bool) (size : Nat) (l : List α) :
    l.filter p = (l.take size).filter p ++ (l.drop size).filter p := by
  rw [← List.filter_append, List.take_append_drop]

theorem length_filter_take_le (p : α → Bool) (size : Nat) (l : List α) :
    ((l.take size).filter p).length ≤ size :=
  Nat.le_trans (List.length_filter_le ..) (List.length_take_le ..)

theorem length_drop_le (hl : l.length ≤ (count + 1) * size) : (l.drop size).length ≤ count * size := by
  rw [List.length_drop]
  rw [Nat.succ_mul] at hl
  omega

/-- The pages of the whole list miss no accepted element, but may have some twice. -/
theorem length_filter_le_pages (hl : l.length ≤ count * size) :
    (l.filter p).length ≤ (pages p l size count).length := by
  induction count generalizing l with
  | zero =>
    have hnil : l = [] := List.length_eq_zero_iff.mp (by omega)
    simp [hnil]
  | succ count ih =>
    have hrest := ih (length_drop_le hl)
    have hsplit := congrArg List.length (filter_split p size l)
    rw [List.length_append] at hsplit
    have hfirst := length_filter_take_le p size l
    rw [pages_succ, List.length_append, List.length_take]
    omega

theorem pages_eq_filter (hs : 0 < size) (hl : l.length ≤ count * size) (h : Aligned p size l) :
    pages p l size count = l.filter p := by
  induction count generalizing l with
  | zero =>
    have hnil : l = [] := List.length_eq_zero_iff.mp (by omega)
    simp [hnil, pages]
  | succ count ih =>
    obtain ⟨hfirst, hrest⟩ := (aligned_iff hs).mp h
    have htake : (l.filter p).take size = (l.take size).filter p := by
      have hcases : ((l.take size).filter p).length = size ∨ (l.drop size).filter p = [] := by
        rcases hfirst with hfirst | hfirst
        · rw [List.filter_eq_self.mpr hfirst, List.length_take]
          by_cases hlen : size ≤ l.length
          · exact .inl (Nat.min_eq_left hlen)
          · right
            rw [List.drop_of_length_le (by omega), List.filter_nil]
        · exact .inr (List.filter_eq_nil_iff.mpr fun b hb => by simp [hfirst b hb])
      rw [filter_split p size l]
      rcases hcases with hfull | hnone
      · exact List.take_left' hfull
      · rw [hnone, List.append_nil, List.take_of_length_le (length_filter_take_le p size l)]
    rw [pages_succ, ih (length_drop_le hl) hrest, htake, ← filter_split]

theorem aligned_of_length (hs : 0 < size) (hl : l.length ≤ count * size)
    (h : (pages p l size count).length = (l.filter p).length) : Aligned p size l := by
  induction count generalizing l with
  | zero =>
    have hnil : l = [] := List.length_eq_zero_iff.mp (by omega)
    intro j hj
    simp [hnil] at hj
  | succ count ih =>
    have hrest := length_filter_le_pages (p := p) (length_drop_le hl)
    have hsplit := congrArg List.length (filter_split p size l)
    rw [List.length_append] at hsplit
    have hfirst := length_filter_take_le p size l
    rw [pages_succ, List.length_append, List.length_take] at h
    refine (aligned_iff hs).mpr ⟨?_, ih (length_drop_le hl) (by omega)⟩
    by_cases hfull : ((l.take size).filter p).length = size
    · left
      refine List.length_filter_eq_length_iff.mp ?_
      have htake := List.length_filter_le p (l.take size)
      have hle := List.length_take_le size l
      omega
    · right
      have hnone : ((l.drop size).filter p).length = 0 := by omega
      intro b hb
      simpa using List.filter_eq_nil_iff.mp (List.length_eq_zero_iff.mp hnone) b hb

end Tarantula
