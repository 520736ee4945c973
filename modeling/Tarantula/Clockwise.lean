import Mathlib.Data.List.Sort
import Mathlib.Order.Basic

/-! A linear order bent to a circle. From a point `t` on, clockwise, the points above `t`
are met first, then those up to `t`; a list that is sorted by a key is read in that
order. -/

namespace Tarantula

variable {α β : Type*} [LinearOrder β]

/-- From `t` on, `a` is met before `b`. A point at `t` itself is met last. -/
def Before (t a b : β) : Prop := if t < a then a < b ∨ b ≤ t else b ≤ t ∧ a < b

theorem Before.trans {t a b c : β} (h : Before t a b) (h' : Before t b c) : Before t a c := by
  unfold Before at *
  grind

theorem Before.irrefl {t a : β} : ¬Before t a a := by
  unfold Before
  grind

theorem Before.asymm {t a b : β} (h : Before t a b) : ¬Before t b a :=
  fun h' => Before.irrefl (h.trans h')

theorem before_or {a b : β} (t : β) (h : a ≠ b) : Before t a b ∨ Before t b a := by
  unfold Before
  grind

/-- Three points met in the order `a`, `b`, `c` are met from `a` on in the order `b`, `c`,
and from `b` on in the order `c`, `a`. -/
theorem Before.turn {t a b c : β} (hab : Before t a b) (hbc : Before t b c) : Before a b c := by
  unfold Before at *
  grind

theorem Before.turn_twice {t a b c : β} (hab : Before t a b) (hbc : Before t b c) :
    Before b c a := by
  unfold Before at *
  grind

def clockwise (key : α → β) (t : β) (l : List α) : List α :=
  l.filter (fun a => t < key a) ++ l.filter (fun a => !decide (t < key a))

section

variable {key : α → β} {t : β} {l l' : List α} {o p n : α}

theorem clockwise_perm : (clockwise key t l).Perm l := List.filter_append_perm _ l

@[simp] theorem mem_clockwise : o ∈ clockwise key t l ↔ o ∈ l := clockwise_perm.mem_iff

theorem filter_clockwise (q : α → Bool) :
    (clockwise key t l).filter q = clockwise key t (l.filter q) := by
  simp only [clockwise, List.filter_append, List.filter_filter, Bool.and_comm]

theorem clockwise_map {f : α → α} (hf : ∀ a, key (f a) = key a) :
    clockwise key t (l.map f) = (clockwise key t l).map f := by
  simp only [clockwise, List.filter_map, Function.comp_def, hf, List.map_append]

theorem clockwise_pairwise (hl : l.Pairwise (key · < key ·)) :
    (clockwise key t l).Pairwise (fun a b => Before t (key a) (key b)) := by
  refine List.pairwise_append.mpr ⟨?_, ?_, ?_⟩
  · refine List.pairwise_filter.mpr (hl.imp fun {a b} hab ha hb => ?_)
    unfold Before
    grind
  · refine List.pairwise_filter.mpr (hl.imp fun {a b} hab ha hb => ?_)
    unfold Before
    grind
  · intro a ha b hb
    unfold Before
    grind

theorem head?_clockwise_iff (hl : l.Pairwise (key · < key ·)) :
    (clockwise key t l).head? = some o ↔
      o ∈ l ∧ ∀ m ∈ l, m = o ∨ Before t (key o) (key m) := by
  have hp := clockwise_pairwise (t := t) hl
  constructor
  · intro h
    obtain ⟨rest, hc⟩ := List.head?_eq_some_iff.mp h
    refine ⟨mem_clockwise.mp (hc ▸ List.mem_cons_self), fun m hm => ?_⟩
    rw [hc] at hp
    rcases List.mem_cons.mp (hc ▸ mem_clockwise.mpr hm) with rfl | hm
    · exact .inl rfl
    · exact .inr ((List.pairwise_cons.mp hp).1 m hm)
  · rintro ⟨ho, hfirst⟩
    cases hc : clockwise key t l with
    | nil => exact absurd (hc ▸ mem_clockwise.mpr ho) List.not_mem_nil
    | cons a rest =>
      rw [hc] at hp
      rcases List.mem_cons.mp (hc ▸ mem_clockwise.mpr ho) with rfl | hrest
      · rfl
      · have hao := (List.pairwise_cons.mp hp).1 o hrest
        rcases hfirst a (mem_clockwise.mp (hc ▸ List.mem_cons_self)) with rfl | hoa
        · rfl
        · exact absurd hoa hao.asymm

theorem getLast?_clockwise (hl : l.Pairwise (key · < key ·))
    (h : (clockwise key t l).getLast? = some p) :
    p ∈ l ∧ ∀ m ∈ l, m = p ∨ Before t (key m) (key p) := by
  have hp := clockwise_pairwise (t := t) hl
  obtain ⟨rest, hc⟩ := List.getLast?_eq_some_iff.mp h
  refine ⟨mem_clockwise.mp (by rw [hc]; simp), fun m hm => ?_⟩
  have hm' : m ∈ rest ++ [p] := hc ▸ mem_clockwise.mpr hm
  rcases List.mem_append.mp hm' with hm' | hm'
  · rw [hc] at hp
    exact .inr ((List.pairwise_append.mp hp).2.2 m hm' p List.mem_cons_self)
  · exact .inl (List.mem_singleton.mp hm')

section Insert

variable (hl : l.Pairwise (key · < key ·)) (hl' : l'.Pairwise (key · < key ·))
  (hperm : l'.Perm (n :: l))
include hl hl' hperm

theorem head?_insert_of_before (ho : (clockwise key t l).head? = some o)
    (h : Before t (key n) (key o)) : (clockwise key t l').head? = some n := by
  rw [head?_clockwise_iff hl']
  rw [head?_clockwise_iff hl] at ho
  refine ⟨hperm.mem_iff.mpr List.mem_cons_self, fun m hm => ?_⟩
  rcases List.mem_cons.mp (hperm.mem_iff.mp hm) with rfl | hm
  · exact .inl rfl
  · rcases ho.2 m hm with rfl | hom
    · exact .inr h
    · exact .inr (h.trans hom)

theorem head?_insert_of_not_before (hn : key n ≠ key o) (ho : (clockwise key t l).head? = some o)
    (h : ¬Before t (key n) (key o)) : (clockwise key t l').head? = some o := by
  rw [head?_clockwise_iff hl']
  rw [head?_clockwise_iff hl] at ho
  refine ⟨hperm.mem_iff.mpr (List.mem_cons_of_mem _ ho.1), fun m hm => ?_⟩
  rcases List.mem_cons.mp (hperm.mem_iff.mp hm) with rfl | hm
  · exact .inr ((before_or t hn).resolve_left h)
  · exact ho.2 m hm

end Insert

/-- A point that is not on the list is met before the first one exactly where it is met
before the point that precedes it on the circle. -/
theorem before_first_iff (hl : l.Pairwise (key · < key ·)) (hn : ∀ m ∈ l, key n ≠ key m)
    (ho : (clockwise key t l).head? = some o) (hp : (clockwise key (key n) l).getLast? = some p) :
    Before t (key n) (key o) ↔ Before t (key n) (key p) := by
  rw [head?_clockwise_iff hl] at ho
  obtain ⟨hpl, hlast⟩ := getLast?_clockwise hl hp
  constructor
  · intro h
    rcases ho.2 p hpl with rfl | hop
    · exact h
    · exact h.trans hop
  · intro h
    refine (before_or t (hn o ho.1)).resolve_right fun hon => ?_
    rcases hlast o ho.1 with rfl | hop
    · exact h.asymm hon
    · exact hop.asymm (hon.turn_twice h)

theorem head?_of_before (hl : l.Pairwise (key · < key ·))
    (ho : (clockwise key t l).head? = some o) (h : Before t (key n) (key o)) :
    (clockwise key (key n) l).head? = some o := by
  rw [head?_clockwise_iff hl] at ho ⊢
  refine ⟨ho.1, fun m hm => ?_⟩
  rcases ho.2 m hm with rfl | hom
  · exact .inl rfl
  · exact .inr (h.turn hom)

end

section Distinct

variable {γ : Type*} [BEq γ] [LawfulBEq γ]

theorem eraseDups_filter (q : γ → Bool) (l : List γ) :
    (l.filter q).eraseDups = l.eraseDups.filter q := by
  induction hn : l.length using Nat.strong_induction_on generalizing l with
  | _ n ih =>
    cases l with
    | nil => simp
    | cons a l =>
      have hlt : (l.filter (fun b => !b == a)).length < n := by
        have hle := List.length_filter_le (fun b => !b == a) l
        simp only [List.length_cons] at hn
        omega
      have hrest := ih _ hlt _ rfl
      rw [List.filter_filter] at hrest
      by_cases ha : q a = true
      · rw [List.filter_cons_of_pos ha, List.eraseDups_cons, List.eraseDups_cons,
          List.filter_cons_of_pos ha, List.filter_filter, ← hrest]
        simp only [Bool.and_comm]
      · rw [List.filter_cons_of_neg ha, List.eraseDups_cons, List.filter_cons_of_neg ha, ← hrest]
        congr 1
        refine List.filter_congr fun b _ => ?_
        by_cases hb : b = a
        · simp [hb, ha]
        · simp [hb]

theorem nodup_eraseDups (l : List γ) : l.eraseDups.Nodup := by
  induction hn : l.length using Nat.strong_induction_on generalizing l with
  | _ n ih =>
    cases l with
    | nil => simp
    | cons a l =>
      have hle := List.length_filter_le (fun b => !b == a) l
      simp only [List.length_cons] at hn
      rw [List.eraseDups_cons, List.nodup_cons]
      exact ⟨by simp [List.mem_eraseDups], ih _ (by omega) _ rfl⟩

theorem eraseDups_perm {l l' : List γ} (h : l.Perm l') : l.eraseDups.Perm l'.eraseDups := by
  rw [List.perm_ext_iff_of_nodup (nodup_eraseDups l) (nodup_eraseDups l')]
  intro a
  rw [List.mem_eraseDups, List.mem_eraseDups, h.mem_iff]

variable [DecidableEq γ] {l : List γ} {x : γ}

omit [BEq γ] [LawfulBEq γ] in
theorem head?_filter_of_ne (h : l.head? ≠ some x) : (l.filter (· ≠ x)).head? = l.head? := by
  cases l with
  | nil => rfl
  | cons a l =>
    have ha : a ≠ x := fun he => h (by rw [he]; rfl)
    rw [List.filter_cons_of_pos (by simpa using ha)]
    rfl

omit [BEq γ] [LawfulBEq γ] in
theorem head?_filter_of_eq (hd : l.Nodup) (h : l.head? = some x) :
    (l.filter (· ≠ x)).head? = l[1]? := by
  obtain ⟨l, rfl⟩ := List.head?_eq_some_iff.mp h
  have hrest : l.filter (· ≠ x) = l := by
    rw [List.filter_eq_self]
    intro b hb
    simpa using fun he : b = x => (List.nodup_cons.mp hd).1 (he ▸ hb)
  rw [List.filter_cons_of_neg (by simp), hrest, List.getElem?_cons_succ, List.head?_eq_getElem?]

end Distinct

end Tarantula
