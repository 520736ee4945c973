import Tarantula.Barrier

/-! The jobs of a task in a steady run. They are started one after the other in their order,
each when the one before is finished, and the task ends once, with its last job. -/

namespace Tarantula

def starts (dir : Directory) (T : Nat) (log : List Act) : List Nat :=
  (log.reverse.filterMap fun | .started k => some k | _ => none).filter (· ∈ dir.jobs T)

theorem starts_append (dir : Directory) (T : Nat) (acts log : List Act) :
    starts dir T (acts ++ log) = starts dir T log ++ starts dir T acts := by
  simp [starts]

theorem starts_nil {dir : Directory} {T : Nat} {acts : List Act} (h : ∀ k ∈ dir.jobs T, .started k ∉ acts) :
    starts dir T acts = [] := by
  rw [starts, List.filter_eq_nil_iff]
  intro k hk hin
  obtain ⟨a, ha, he⟩ := List.mem_filterMap.mp hk
  cases a with
  | started j =>
    cases he
    exact h _ (by simpa using hin) (List.mem_reverse.mp ha)
  | _ => cases he

/-- The first `n` jobs of the task are finished, the first `s` have been started, in this
order, and nothing has been said of the others. -/
structure Chain (dir : Directory) (T : Nat) (log : List Act) (n s : Nat) : Prop where
  started : starts dir T log = (dir.jobs T).take s
  finished : ∀ k ∈ (dir.jobs T).take n, .finished k ∈ log
  unfinished : ∀ k ∈ (dir.jobs T).drop n, .finished k ∉ log
  waiting : ∀ k ∈ (dir.jobs T).drop s, Unheard k log

namespace Chain

variable {dir : Directory} {T n s k : Nat} {log acts : List Act}

theorem same (h : Chain dir T log n s) (hs : ∀ k ∈ dir.jobs T, .started k ∉ acts)
    (hf : ∀ k ∈ dir.jobs T, .finished k ∉ acts)
    (hu : ∀ k ∈ dir.jobs T, Unheard k log → Unheard k acts) : Chain dir T (acts ++ log) n s := by
  refine ⟨?_, fun k hk => ?_, fun k hk => ?_, fun k hk => ?_⟩
  · rw [starts_append, starts_nil hs, List.append_nil, h.started]
  · exact List.mem_append_right _ (h.finished k hk)
  · rw [List.mem_append, not_or]
    exact ⟨hf k (List.mem_of_mem_drop hk), h.unfinished k hk⟩
  · have hw := h.waiting k hk
    exact unheard_append.mpr ⟨hu k (List.mem_of_mem_drop hk) hw, hw⟩

theorem not_mem_drop (hnd : (dir.jobs T).Nodup) (hk : (dir.jobs T)[n]? = some k) :
    k ∉ (dir.jobs T).drop (n + 1) := by
  obtain ⟨hn, rfl⟩ := List.getElem?_eq_some_iff.mp hk
  have hnd' := hnd.sublist (List.drop_sublist n _)
  rw [List.drop_eq_getElem_cons hn] at hnd'
  exact (List.nodup_cons.mp hnd').1

theorem start (h : Chain dir T log n n) (hnd : (dir.jobs T).Nodup) (hk : (dir.jobs T)[n]? = some k)
    (hs : starts dir T acts = [k]) (ha : ∀ a ∈ acts, a.job = some k) (hf : .finished k ∉ acts) :
    Chain dir T (acts ++ log) n (n + 1) := by
  refine ⟨?_, fun j hj => List.mem_append_right _ (h.finished j hj), fun j hj => ?_, fun j hj => ?_⟩
  · rw [starts_append, h.started, hs, List.take_add_one, hk]
    rfl
  · rw [List.mem_append, not_or]
    refine ⟨fun hx => hf ?_, h.unfinished j hj⟩
    obtain rfl : j = k := Option.some.inj (ha _ hx)
    exact hx
  · refine unheard_append.mpr ⟨fun a hmem he => ?_, ?_⟩
    · obtain rfl : k = j := Option.some.inj ((ha a hmem).symm.trans he)
      exact not_mem_drop hnd hk hj
    · exact h.waiting j (List.mem_of_mem_drop (by rw [List.drop_drop]; exact hj))

theorem finish (h : Chain dir T log n (n + 1)) (hnd : (dir.jobs T).Nodup)
    (hk : (dir.jobs T)[n]? = some k) (hf : .finished k ∈ acts) (hs : ∀ k, .started k ∉ acts)
    (ha : ∀ a ∈ acts, ∀ j, a.job = some j → k = j) : Chain dir T (acts ++ log) (n + 1) (n + 1) := by
  have hne : ∀ j ∈ (dir.jobs T).drop (n + 1), k ≠ j := by
    rintro j hj rfl
    exact not_mem_drop hnd hk hj
  refine ⟨?_, fun j hj => ?_, fun j hj => ?_, fun j hj => ?_⟩
  · rw [starts_append, starts_nil fun k _ => hs k, List.append_nil, h.started]
  · rw [List.take_add_one, hk, Option.toList_some, List.mem_append, List.mem_singleton] at hj
    rcases hj with hj | rfl
    · exact List.mem_append_right _ (h.finished j hj)
    · exact List.mem_append_left _ hf
  · rw [List.mem_append, not_or]
    refine ⟨fun hx => hne j hj (ha _ hx j rfl), h.unfinished j ?_⟩
    exact List.mem_of_mem_drop (by rw [List.drop_drop]; exact hj)
  · exact unheard_append.mpr ⟨fun a hmem he => hne j hj (ha a hmem j he), h.waiting j hj⟩

theorem current (h : Chain dir T log n s) (hs : s ≤ n + 1) (hk : k ∈ dir.jobs T) (hst : .started k ∈ log)
    (hf : .finished k ∉ log) : s = n + 1 ∧ (dir.jobs T)[n]? = some k := by
  obtain ⟨i, hi⟩ := List.mem_iff_getElem?.mp hk
  have hn : n ≤ i := by
    by_contra hlt
    exact hf (h.finished k (List.mem_iff_getElem?.mpr ⟨i, by rw [List.getElem?_take_of_lt (by omega), hi]⟩))
  have his : i < s := by
    by_contra hge
    refine (h.waiting k (List.mem_iff_getElem?.mpr ⟨i - s, ?_⟩)).not_started hst
    rw [List.getElem?_drop, ← hi]
    congr 1
    omega
  obtain rfl : i = n := by omega
  exact ⟨by omega, hi⟩

theorem turn (h : Chain dir T log n s) (hs : s ≤ n + 1) {i j : Nat} (hj : (dir.jobs T)[i]? = some j)
    (hk : (dir.jobs T)[i + 1]? = some k) (hst : .started k ∈ log) : .finished j ∈ log := by
  have his : i + 1 < s := by
    by_contra hge
    refine (h.waiting k (List.mem_iff_getElem?.mpr ⟨i + 1 - s, ?_⟩)).not_started hst
    rw [List.getElem?_drop, ← hk]
    congr 1
    omega
  exact h.finished j (List.mem_iff_getElem?.mpr ⟨i, by rw [List.getElem?_take_of_lt (by omega), hj]⟩)

end Chain

/-- What has to be in the log before an act on the task `T`: a transaction is asked to reserve
after the job before its own is finished, and the task ends after all its jobs. -/
inductive Requires (dir : Directory) (T : Nat) : Act → Act → Prop
  | reserve {tc i j} (hk : (dir.jobs T)[i + 1]? = some tc.jobId) (hj : (dir.jobs T)[i]? = some j) :
      Requires dir T (.askReserve tc) (.finished j)
  | ended {j} (hj : j ∈ dir.jobs T) : Requires dir T (.ended T) (.finished j)

def InTurn (dir : Directory) (T : Nat) (log : List Act) : Prop :=
  ∀ n a b, log[n]? = some a → Requires dir T a b → b ∈ log.drop (n + 1)

theorem InTurn.append {dir : Directory} {T : Nat} {acts log : List Act} (h : InTurn dir T log)
    (ha : ∀ a ∈ acts, ∀ b, Requires dir T a b → b ∈ log) : InTurn dir T (acts ++ log) := by
  intro n a b hn hab
  by_cases hlt : n < acts.length
  · rw [List.getElem?_append_left hlt] at hn
    rw [List.drop_append_of_le_length hlt]
    exact List.mem_append_right _ (ha a (List.mem_of_getElem? hn) b hab)
  · have hle : acts.length ≤ n := Nat.le_of_not_lt hlt
    rw [List.getElem?_append_right hle] at hn
    have hold := h (n - acts.length) a b hn hab
    rw [List.drop_append, List.drop_eq_nil_of_le (by omega), List.nil_append]
    rwa [show n + 1 - acts.length = n - acts.length + 1 by omega]

theorem InTurn.quiet {dir : Directory} {T : Nat} {acts log : List Act} (h : InTurn dir T log)
    (hr : ∀ tc, .askReserve tc ∉ acts) (he : .ended T ∉ acts) : InTurn dir T (acts ++ log) := by
  refine h.append fun a ha b hab => ?_
  cases hab with
  | reserve => exact absurd ha (hr _)
  | ended => exact absurd ha he

end Tarantula
