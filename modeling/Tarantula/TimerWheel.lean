import Tarantula.ExtMap

/-! Timers stored under keys, in the manner of `time.AfterFunc`. Every timer has a number of
its own. Storing a new one under a key does not stop the old one; closing a key stops the
timer stored there, if it is still running. -/

namespace Tarantula

/-- `current` is the timer stored under each key. The timers that have neither fired nor been
stopped are running, each with the event it will raise. -/
structure Wheel (κ α : Type) [Ord κ] where
  made : Nat
  current : Std.ExtTreeMap κ Nat
  running : List (Nat × α)

inductive TimerOp (κ α : Type)
  | arm (a : α)
  | close (k : κ)
  deriving DecidableEq, Repr

/-- A timer is stored under `k` after the operation, `p` saying whether one was before. -/
def TimerOp.Stores {κ α : Type} (key : α → κ) (k : κ) (p : Prop) : TimerOp κ α → Prop
  | .arm a => p ∨ key a = k
  | .close k' => p ∧ k' ≠ k

def StoredAfter {κ α : Type} (key : α → κ) (k : κ) (ops : List (TimerOp κ α)) (p : Prop) : Prop :=
  ops.foldl (fun p op => op.Stores key k p) p

namespace Wheel

variable {κ α : Type} [Ord κ] [Std.TransOrd κ]

def empty : Wheel κ α := ⟨0, ∅, []⟩

def arm (key : α → κ) (w : Wheel κ α) (a : α) : Wheel κ α :=
  ⟨w.made + 1, w.current.insert (key a) w.made, w.running ++ [(w.made, a)]⟩

def close (w : Wheel κ α) (k : κ) : Wheel κ α :=
  match w.current[k]? with
  | none => w
  | some n => { w with current := w.current.erase k, running := w.running.filter (·.1 ≠ n) }

def apply (key : α → κ) (w : Wheel κ α) : TimerOp κ α → Wheel κ α
  | .arm a => w.arm key a
  | .close k => w.close k

def run (key : α → κ) (w : Wheel κ α) (ops : List (TimerOp κ α)) : Wheel κ α :=
  ops.foldl (apply key) w

def forget (w : Wheel κ α) (k : κ) : Wheel κ α := { w with current := w.current.erase k }

def fire (w : Wheel κ α) (i : Nat) : Wheel κ α := { w with running := w.running.eraseIdx i }

/-- Numbers are given out once, and a timer is stored under no key but its own. -/
structure Proper (key : α → κ) (w : Wheel κ α) : Prop where
  running_lt : ∀ t ∈ w.running, t.1 < w.made
  current_lt : ∀ (k : κ) n, w.current[k]? = some n → n < w.made
  stored : ∀ (k : κ) t, t ∈ w.running → w.current[k]? = some t.1 → key t.2 = k

variable {key : α → κ} {w : Wheel κ α} {t : Nat × α} {ops : List (TimerOp κ α)}

theorem mem_of_close {k : κ} (h : t ∈ (w.close k).running) : t ∈ w.running := by
  unfold close at h
  split at h
  · exact h
  · exact (List.mem_filter.mp h).1

theorem of_mem_run (h : t ∈ (w.run key ops).running) : t ∈ w.running ∨ .arm t.2 ∈ ops := by
  induction ops generalizing w with
  | nil => exact .inl h
  | cons op ops ih =>
    rcases ih (w := w.apply key op) h with h | h
    · cases op with
      | arm a =>
        rcases List.mem_append.mp h with h | h
        · exact .inl h
        · rw [List.mem_singleton.mp h]
          exact .inr (List.mem_cons_self ..)
      | close k => exact .inl (mem_of_close h)
    · exact .inr (List.mem_cons_of_mem _ h)

namespace Proper

theorem empty : Proper key (Wheel.empty : Wheel κ α) :=
  ⟨by simp [Wheel.empty], by simp [Wheel.empty], by simp [Wheel.empty]⟩

theorem fire (h : Proper key w) (i : Nat) : Proper key (w.fire i) :=
  ⟨fun t ht => h.running_lt t (List.mem_of_mem_eraseIdx ht), h.current_lt,
    fun k t ht hn => h.stored k t (List.mem_of_mem_eraseIdx ht) hn⟩

theorem mem_close (h : Proper key w) {k : κ} (ht : t ∈ w.running) (hk : key t.2 ≠ k) :
    t ∈ (w.close k).running := by
  unfold Wheel.close
  split
  · exact ht
  · next n hn =>
    refine List.mem_filter.mpr ⟨ht, ?_⟩
    simp only [ne_eq, decide_eq_true_eq]
    rintro rfl
    exact hk (h.stored k t ht hn)

variable [Std.LawfulEqOrd κ] [DecidableEq κ]

theorem arm (h : Proper key w) (a : α) : Proper key (w.arm key a) := by
  refine ⟨fun t ht => ?_, fun k n hn => ?_, fun k t ht hn => ?_⟩
  · rcases List.mem_append.mp ht with ht | ht
    · exact Nat.lt_succ_of_lt (h.running_lt t ht)
    · rw [List.mem_singleton.mp ht]
      exact Nat.lt_succ_self _
  · simp only [Wheel.arm, ExtMap.getElem?_insert] at hn ⊢
    split at hn
    · cases hn
      exact Nat.lt_succ_self _
    · exact Nat.lt_succ_of_lt (h.current_lt k n hn)
  · simp only [Wheel.arm, ExtMap.getElem?_insert] at hn
    rcases List.mem_append.mp ht with ht | ht
    · have hlt := h.running_lt t ht
      split at hn
      · exact absurd (Option.some.inj hn) (by omega)
      · exact h.stored k t ht hn
    · obtain rfl := List.mem_singleton.mp ht
      split at hn
      · next hk => exact hk
      · have hlt := h.current_lt k _ hn
        exact absurd hlt (Nat.lt_irrefl _)

theorem close (h : Proper key w) (k : κ) : Proper key (w.close k) := by
  refine ⟨fun t ht => ?_, fun k' n hn => ?_, fun k' t ht hn => ?_⟩
  · have hlt := h.running_lt t (mem_of_close ht)
    unfold Wheel.close
    split <;> exact hlt
  · unfold Wheel.close at hn ⊢
    split at hn
    · exact h.current_lt k' n hn
    · rw [ExtMap.getElem?_erase] at hn
      split at hn
      · cases hn
      · exact h.current_lt k' n hn
  · have hin := mem_of_close ht
    unfold Wheel.close at hn
    split at hn
    · exact h.stored k' t hin hn
    · rw [ExtMap.getElem?_erase] at hn
      split at hn
      · cases hn
      · exact h.stored k' t hin hn

theorem forget (h : Proper key w) (k : κ) : Proper key (w.forget k) := by
  have hsub : ∀ (k' : κ) n, (w.forget k).current[k']? = some n → w.current[k']? = some n := by
    intro k' n hn
    rw [Wheel.forget, ExtMap.getElem?_erase] at hn
    split at hn
    · cases hn
    · exact hn
  exact ⟨h.running_lt, fun k' n hn => h.current_lt k' n (hsub k' n hn),
    fun k' t ht hn => h.stored k' t ht (hsub k' _ hn)⟩

theorem apply (h : Proper key w) : ∀ op, Proper key (w.apply key op)
  | .arm a => h.arm a
  | .close k => h.close k

theorem run (h : Proper key w) (ops : List (TimerOp κ α)) : Proper key (w.run key ops) := by
  induction ops generalizing w with
  | nil => exact h
  | cons op ops ih => exact ih (h.apply op)

theorem mem_run (h : Proper key w) (ht : t ∈ w.running) (hc : .close (key t.2) ∉ ops) :
    t ∈ (w.run key ops).running := by
  induction ops generalizing w with
  | nil => exact ht
  | cons op ops ih =>
    rw [List.mem_cons, not_or] at hc
    refine ih (h.apply op) ?_ hc.2
    cases op with
    | arm a => exact List.mem_append_left _ ht
    | close k => exact h.mem_close ht fun hk => hc.1 (hk ▸ rfl)

theorem armed_run (h : Proper key w) (before : List (TimerOp κ α)) {a : α} (hc : .close (key a) ∉ ops) :
    ∃ n, (n, a) ∈ (w.run key (before ++ .arm a :: ops)).running := by
  have hsplit : w.run key (before ++ .arm a :: ops) = ((w.run key before).arm key a).run key ops := by
    simp [Wheel.run, Wheel.apply]
  refine ⟨(w.run key before).made, ?_⟩
  rw [hsplit]
  exact mem_run ((h.run before).arm a) (List.mem_append_right _ (List.mem_singleton_self _)) hc

end Proper

variable [Std.LawfulEqOrd κ] [DecidableEq κ]

theorem isSome_forget {k k' : κ} :
    ((w.forget k').current[k]?).isSome ↔ (w.current[k]?).isSome ∧ k' ≠ k := by
  rw [forget, ExtMap.getElem?_erase]
  split <;> simp [*]

theorem isSome_apply {k : κ} (op : TimerOp κ α) :
    ((w.apply key op).current[k]?).isSome ↔ op.Stores key k (w.current[k]?).isSome := by
  cases op with
  | arm a =>
    rw [apply, arm, TimerOp.Stores, ExtMap.getElem?_insert]
    split <;> simp [*]
  | close k' =>
    rw [apply, close, TimerOp.Stores]
    split
    · next hn =>
      refine ⟨fun h => ⟨h, ?_⟩, And.left⟩
      rintro rfl
      simp [hn] at h
    · exact isSome_forget

theorem isSome_run {k : κ} (ops : List (TimerOp κ α)) :
    ((w.run key ops).current[k]?).isSome ↔ StoredAfter key k ops (w.current[k]?).isSome := by
  induction ops generalizing w with
  | nil => exact .rfl
  | cons op ops ih =>
    refine (ih (w := w.apply key op)).trans ?_
    rw [propext (isSome_apply op)]
    rfl

end Wheel

end Tarantula
