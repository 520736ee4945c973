import Mathlib.Data.List.Rotate
import Mathlib.Logic.Function.Basic

/-! Round robin over a family of pools. Each key has its pool and its counter, and a turn for a key
takes the element of its pool at the counter, modulo the length, and advances the counter. As many
turns as the pool has elements go through the whole pool, from wherever the counter stands and
whatever turns other keys have in between. -/

namespace Tarantula.RoundRobin

variable {κ α : Type} [DecidableEq κ]

def turns (pool : List α) (start n : Nat) : List (Option α) :=
  (List.range' start n).map fun i => pool[i % pool.length]?

def run (pool : κ → List α) : List κ → (κ → Nat) → List (κ × Option α)
  | [], _ => []
  | k :: ks, c => (k, (pool k)[c k % (pool k).length]?) :: run pool ks (Function.update c k (c k + 1))

def answersOf (k : κ) (answers : List (κ × Option α)) : List (Option α) :=
  (answers.filter (·.1 = k)).map (·.2)

theorem turns_succ (pool : List α) (start n : Nat) :
    turns pool start (n + 1) = pool[start % pool.length]? :: turns pool (start + 1) n := by
  rw [turns, List.range'_succ, List.map_cons]
  rfl

theorem turns_length (pool : List α) (start : Nat) :
    turns pool start pool.length = (pool.rotate start).map some := by
  apply List.ext_getElem
  · simp [turns]
  · intro i hi hi'
    have hlt : i < pool.length := by simpa [turns] using hi
    have hmod : (start + i) % pool.length < pool.length := Nat.mod_lt _ (by omega)
    simp only [turns, List.getElem_map, List.getElem_range', Nat.one_mul, List.getElem_rotate,
      List.getElem?_eq_getElem hmod, Nat.add_comm i start]

theorem turns_perm (pool : List α) (start : Nat) :
    (turns pool start pool.length).Perm (pool.map some) := by
  rw [turns_length]
  exact (List.rotate_perm pool start).map some

theorem answersOf_cons (k k' : κ) (a : Option α) (answers : List (κ × Option α)) :
    answersOf k ((k', a) :: answers) = if k' = k then a :: answersOf k answers else answersOf k answers := by
  unfold answersOf
  by_cases hk : k' = k
  · rw [if_pos hk, List.filter_cons_of_pos (by simpa using hk), List.map_cons]
  · rw [if_neg hk, List.filter_cons_of_neg (by simpa using hk)]

theorem answersOf_run (pool : κ → List α) (k : κ) (ks : List κ) (c : κ → Nat) :
    answersOf k (run pool ks c) = turns (pool k) (c k) (ks.countP (· = k)) := by
  induction ks generalizing c with
  | nil => rfl
  | cons k' ks ih =>
    rw [run, answersOf_cons, ih]
    by_cases hk : k' = k
    · subst hk
      rw [if_pos rfl, Function.update_self, List.countP_cons_of_pos (by simp), turns_succ]
    · rw [if_neg hk, Function.update_of_ne (fun h => hk h.symm), List.countP_cons_of_neg (by simpa using hk)]

end Tarantula.RoundRobin
