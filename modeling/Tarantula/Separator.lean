import Mathlib.Data.Finset.Max
import Mathlib.Data.List.Basic

/-! Texts in two parts with a separator between them. Where the first part does not have the
separator, the text determines its parts. -/

namespace Tarantula

theorem append_cons_inj {α : Type} {a : α} {x x' z z' : List α} (hx : a ∉ x) (hx' : a ∉ x')
    (h : x ++ a :: z = x' ++ a :: z') : x = x' ∧ z = z' := by
  induction x generalizing x' with
  | nil =>
    cases x' with
    | nil => exact ⟨rfl, (List.cons.inj h).2⟩
    | cons b x' =>
      have hb : a = b := (List.cons.inj h).1
      exact absurd (List.mem_cons.mpr (.inl hb)) hx'
  | cons b x ih =>
    cases x' with
    | nil =>
      have hb : b = a := (List.cons.inj h).1
      exact absurd (List.mem_cons.mpr (.inl hb.symm)) hx
    | cons b' x' =>
      obtain ⟨rfl, htail⟩ := List.cons.inj h
      obtain ⟨rfl, rfl⟩ := ih (List.not_mem_of_not_mem_cons hx) (List.not_mem_of_not_mem_cons hx') htail
      exact ⟨rfl, rfl⟩

theorem separated_inj {sep : String} {c : Char} (hsep : sep.toList = [c]) {x x' z z' : String}
    (hx : c ∉ x.toList) (hx' : c ∉ x'.toList) (h : x ++ sep ++ z = x' ++ sep ++ z') : x = x' ∧ z = z' := by
  have hl := congrArg String.toList h
  simp only [String.toList_append, hsep, List.append_assoc, List.singleton_append] at hl
  obtain ⟨hl, hr⟩ := append_cons_inj hx hx' hl
  exact ⟨String.toList_inj.mp hl, String.toList_inj.mp hr⟩

theorem separated_inj_right {sep : String} {c : Char} (hsep : sep.toList = [c]) {x x' z z' : String}
    (hz : c ∉ z.toList) (hz' : c ∉ z'.toList) (h : x ++ sep ++ z = x' ++ sep ++ z') : x = x' ∧ z = z' := by
  have hl := congrArg (fun s : String => s.toList.reverse) h
  simp only [String.toList_append, hsep, List.reverse_append, List.reverse_cons, List.reverse_nil,
    List.nil_append, List.singleton_append] at hl
  obtain ⟨hr, hl⟩ := append_cons_inj (List.mem_reverse.not.mpr hz) (List.mem_reverse.not.mpr hz') hl
  exact ⟨String.toList_inj.mp (List.reverse_injective hl), String.toList_inj.mp (List.reverse_injective hr)⟩

theorem not_mem_toString {c : Char} (hc : c.isDigit = false) (n : Nat) : c ∉ (toString n).toList := by
  rw [Nat.toString_eq_repr, Nat.repr_eq_ofList_toDigits, String.toList_ofList]
  intro hmem
  have hdigit := Nat.isDigit_of_mem_toDigits (by decide) (by decide) hmem
  rw [hc] at hdigit
  cases hdigit

theorem eq_of_append_mem {α : Type} {ls : List (List α)} (hls : ls ≠ []) {r s : List α}
    (h : ∀ x ∈ ls, ∃ y ∈ ls, x ++ r = y ++ s) : r = s := by
  classical
  have hne : ls.toFinset.Nonempty := List.toFinset_nonempty_iff ls |>.mpr hls
  rcases Nat.lt_trichotomy r.length s.length with hlt | heq | hlt
  · obtain ⟨x, hx, hmin⟩ := ls.toFinset.exists_min_image List.length hne
    obtain ⟨y, hy, hxy⟩ := h x (List.mem_toFinset.mp hx)
    have hle := hmin y (List.mem_toFinset.mpr hy)
    have hlen := congrArg List.length hxy
    simp only [List.length_append] at hlen
    omega
  · obtain ⟨x, hx⟩ := List.exists_mem_of_ne_nil ls hls
    obtain ⟨y, -, hxy⟩ := h x hx
    exact (List.append_inj' hxy heq).2
  · obtain ⟨x, hx, hmax⟩ := ls.toFinset.exists_max_image List.length hne
    obtain ⟨y, hy, hxy⟩ := h x (List.mem_toFinset.mp hx)
    have hle := hmax y (List.mem_toFinset.mpr hy)
    have hlen := congrArg List.length hxy
    simp only [List.length_append] at hlen
    omega

end Tarantula
