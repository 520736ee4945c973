import Mathlib.Order.Lattice

/-! Registers that keep the value of the highest rank. What a register holds in the end is
determined by the values it was given, so that their order and repetitions do not matter. -/

namespace Tarantula.Newest

variable {α β : Type*} [LinearOrder β] (rank : α → β)

/-- A value replaces one of a lower rank only. -/
def keep : Option α → α → Option α
  | none, x => some x
  | some y, x => if rank y < rank x then some x else some y

/-- What a register that starts with `start` holds after the values `l`: one of them that is highest
and above `start`, or still `start` where none is above it. -/
def Settled (start : Option α) (l : List α) (r : Option α) : Prop :=
  (r = start ∧ ∀ x ∈ l, ∃ y ∈ start, rank x ≤ rank y) ∨
    ∃ x ∈ l, r = some x ∧ (∀ y ∈ start, rank y < rank x) ∧ ∀ y ∈ l, rank y ≤ rank x

variable {rank} {start r r' : Option α} {l l' : List α} {x : α}

theorem Settled.cons_replaced (hx : ∀ y ∈ start, rank y < rank x) (h : Settled rank (some x) l r) :
    Settled rank start (x :: l) r := by
  right
  rcases h with ⟨rfl, hl⟩ | ⟨x', hx', rfl, habove, hl⟩
  · refine ⟨x, List.mem_cons_self, rfl, hx, fun y hy => ?_⟩
    rcases List.mem_cons.mp hy with rfl | hy
    · exact le_rfl
    · obtain ⟨z, hz, hle⟩ := hl y hy
      cases hz
      exact hle
  · have hlt := habove x rfl
    refine ⟨x', List.mem_cons_of_mem _ hx', rfl, fun y hy => (hx y hy).trans hlt, fun y hy => ?_⟩
    rcases List.mem_cons.mp hy with rfl | hy
    · exact hlt.le
    · exact hl y hy

theorem Settled.cons_kept (hx : ∃ y ∈ start, rank x ≤ rank y) (h : Settled rank start l r) :
    Settled rank start (x :: l) r := by
  rcases h with ⟨rfl, hl⟩ | ⟨x', hx', rfl, habove, hl⟩
  · left
    refine ⟨rfl, fun y hy => ?_⟩
    rcases List.mem_cons.mp hy with rfl | hy
    · exact hx
    · exact hl y hy
  · right
    refine ⟨x', List.mem_cons_of_mem _ hx', rfl, habove, fun y hy => ?_⟩
    rcases List.mem_cons.mp hy with rfl | hy
    · obtain ⟨z, hz, hle⟩ := hx
      exact hle.trans (habove z hz).le
    · exact hl y hy

theorem settled_foldl (rank : α → β) (start : Option α) (l : List α) :
    Settled rank start l (l.foldl (keep rank) start) := by
  induction l generalizing start with
  | nil => exact .inl ⟨rfl, fun x hx => by cases hx⟩
  | cons x l ih =>
    rw [List.foldl_cons]
    cases start with
    | none => exact (ih _).cons_replaced fun y hy => by cases hy
    | some y =>
      rw [keep]
      split
      · next hlt =>
        refine (ih _).cons_replaced fun z hz => ?_
        cases hz
        exact hlt
      · next hge => exact (ih _).cons_kept ⟨y, rfl, not_lt.mp hge⟩

theorem Settled.unique (hinj : ∀ x ∈ l, ∀ y ∈ l, rank x = rank y → x = y) (h : Settled rank start l r)
    (h' : Settled rank start l r') : r = r' := by
  rcases h with ⟨rfl, hl⟩ | ⟨x, hx, rfl, habove, hl⟩
  · rcases h' with ⟨rfl, -⟩ | ⟨x, hx, -, habove, -⟩
    · rfl
    · obtain ⟨y, hy, hle⟩ := hl x hx
      exact absurd (habove y hy) (not_lt.mpr hle)
  · rcases h' with ⟨-, hl'⟩ | ⟨x', hx', rfl, -, hl'⟩
    · obtain ⟨y, hy, hle⟩ := hl' x hx
      exact absurd (habove y hy) (not_lt.mpr hle)
    · rw [hinj x hx x' hx' (le_antisymm (hl' x hx) (hl x' hx'))]

theorem Settled.congr (hmem : ∀ x, x ∈ l ↔ x ∈ l') (h : Settled rank start l r) :
    Settled rank start l' r := by
  simpa only [Settled, hmem] using h

theorem foldl_keep_congr (hmem : ∀ x, x ∈ l ↔ x ∈ l')
    (hinj : ∀ x ∈ l, ∀ y ∈ l, rank x = rank y → x = y) (start : Option α) :
    l.foldl (keep rank) start = l'.foldl (keep rank) start :=
  (settled_foldl rank start l).unique hinj ((settled_foldl rank start l').congr fun x => (hmem x).symm)

end Tarantula.Newest
