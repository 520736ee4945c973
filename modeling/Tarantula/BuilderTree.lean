import Mathlib.Data.List.Basic
import Tarantula.Lists
import Tarantula.TaskBuilder

/-! What a task builder makes of calls in the usual order: a job gets its transactions one after the other,
each with its Meta and its message, and is added to the task. The jobs under way are seen as the tree that
would be sent. -/

namespace Tarantula

section Calls

variable {μ : Type}

/-- `Transaction().Meta(..).Message(..).Build()` -/
def transactionCalls (jb tx : Nat) (mt : Meta) (message : μ) : List (BuildCall μ) :=
  [.transaction jb, .metadata tx (some mt), .message tx (some message), .buildTransaction tx]

def messageCalls (jb : Nat) (mt : Meta) : List μ → Nat → List (BuildCall μ)
  | [], _ => []
  | message :: messages, tx => transactionCalls jb tx mt message ++ messageCalls jb mt messages (tx + 1)

end Calls

namespace TaskBuilder

variable {μ : Type} {b : TaskBuilder μ} {jb : Nat} {mt : Meta}

def tree (b : TaskBuilder μ) : List (Wire.Job μ) := b.builders.map b.target

/-- No job has a transaction that does not exist. -/
def Whole (b : TaskBuilder μ) : Prop := ∀ jb ∈ b.builders, ∀ tx ∈ jb.transactions, tx < b.transactions.length

def withTransaction (b : TaskBuilder μ) (jb : Nat) (t : Wire.Transaction μ) : TaskBuilder μ :=
  { b with
    transactions := b.transactions ++ [⟨jb, t⟩]
    builders := b.builders.modify jb fun x =>
      { x with transactions := x.transactions ++ [b.transactions.length] } }

theorem run_transactionCalls (hjb : jb < b.builders.length) (message : μ) :
    (transactionCalls jb b.transactions.length mt message).foldlM step b =
      some (b.withTransaction jb ⟨some mt, none, none, some message⟩) := by
  simp [transactionCalls, step, set, hjb, modify_last, withTransaction]

theorem Whole.append_job (hw : b.Whole) (mt : Option Meta) :
    Whole { b with builders := b.builders ++ [⟨mt, []⟩] } := by
  intro x hx tx htx
  rcases List.mem_append.mp hx with hx | hx
  · exact hw x hx tx htx
  · rw [List.mem_singleton.mp hx] at htx
    cases htx

theorem whole_withTransaction (hw : b.Whole) (jb : Nat) (t : Wire.Transaction μ) :
    (b.withTransaction jb t).Whole := by
  intro x hx tx htx
  obtain ⟨i, hi⟩ := List.getElem?_of_mem hx
  rw [withTransaction, List.getElem?_modify] at hi
  obtain ⟨old, hold, rfl⟩ := Option.map_eq_some_iff.mp hi
  have hlen : (b.withTransaction jb t).transactions.length = b.transactions.length + 1 := by
    simp [withTransaction]
  rw [hlen]
  split at htx
  · rcases List.mem_append.mp htx with htx | htx
    · have hlt := hw old (List.mem_of_getElem? hold) tx htx
      omega
    · rw [List.mem_singleton.mp htx]
      omega
  · have hlt := hw old (List.mem_of_getElem? hold) tx htx
    omega

theorem target_withTransaction (hw : b.Whole) {x : JobBuilder} (hx : x ∈ b.builders)
    (t : Wire.Transaction μ) :
    (b.withTransaction jb t).target x = b.target x := by
  unfold target withTransaction
  congr 1
  apply List.filterMap_congr
  intro tx htx
  rw [List.getElem?_append_left (hw x hx tx htx)]

theorem tree_withTransaction (hw : b.Whole) (t : Wire.Transaction μ) :
    (b.withTransaction jb t).tree =
      b.tree.modify jb fun w => { w with transactions := w.transactions ++ [t] } := by
  have hadded : ∀ x ∈ b.builders, (b.withTransaction jb t).target
      { x with transactions := x.transactions ++ [b.transactions.length] } =
        { b.target x with transactions := (b.target x).transactions ++ [t] } := by
    intro x hx
    have hold : (x.transactions.filterMap fun tx =>
        (b.withTransaction jb t).transactions[tx]?.map (·.target)) = (b.target x).transactions :=
      congrArg Wire.Job.transactions (target_withTransaction hw hx t)
    have hlast : (b.withTransaction jb t).transactions[b.transactions.length]? = some ⟨jb, t⟩ := by
      simp [withTransaction]
    rw [target, List.filterMap_append, hold]
    simp [target, hlast]
  apply List.ext_getElem?
  intro i
  rw [tree, tree, List.getElem?_map, List.getElem?_modify, List.getElem?_map, withTransaction,
    List.getElem?_modify]
  cases hi : b.builders[i]? with
  | none => rfl
  | some x =>
    have hx := List.mem_of_getElem? hi
    by_cases hj : jb = i
    · simp only [hj, if_true, Option.map_some]
      have hx' := hadded x hx
      rw [hj] at hx'
      exact congrArg some hx'
    · simp only [hj, if_false, Option.map_some]
      exact congrArg some (target_withTransaction hw hx t)

def withMessages (jb : Nat) (mt : Meta) (messages : List μ) (b : TaskBuilder μ) : TaskBuilder μ :=
  messages.foldl (fun b message => b.withTransaction jb ⟨some mt, none, none, some message⟩) b

theorem run_messageCalls (mt : Meta) (messages : List μ) {b : TaskBuilder μ} (hjb : jb < b.builders.length) :
    (messageCalls jb mt messages b.transactions.length).foldlM step b =
      some (b.withMessages jb mt messages) := by
  induction messages generalizing b with
  | nil => rfl
  | cons message messages ih =>
    have hlen : (b.withTransaction jb ⟨some mt, none, none, some message⟩).transactions.length =
        b.transactions.length + 1 := by simp [withTransaction]
    have hrest := ih (b := b.withTransaction jb ⟨some mt, none, none, some message⟩)
      (by simpa [withTransaction] using hjb)
    rw [hlen] at hrest
    rw [messageCalls, List.foldlM_append, run_transactionCalls hjb]
    exact hrest

structure Extended (b b' : TaskBuilder μ) (jb : Nat) (added : List (Wire.Transaction μ)) : Prop where
  jobs : b'.jobs = b.jobs
  builders : b'.builders.length = b.builders.length
  transactions : b'.transactions.length = b.transactions.length + added.length
  whole : b'.Whole
  tree : b'.tree = b.tree.modify jb fun w => { w with transactions := w.transactions ++ added }

theorem extended_withMessages (jb : Nat) (mt : Meta) (messages : List μ) {b : TaskBuilder μ} (hw : b.Whole) :
    Extended b (b.withMessages jb mt messages) jb (messages.map fun m => ⟨some mt, none, none, some m⟩) := by
  induction messages generalizing b with
  | nil =>
    refine ⟨rfl, rfl, rfl, hw, ?_⟩
    apply List.ext_getElem?
    intro i
    rw [List.getElem?_modify]
    simp [withMessages]
  | cons message messages ih =>
    have h := ih (whole_withTransaction hw jb ⟨some mt, none, none, some message⟩)
    refine ⟨h.jobs, h.builders.trans (by simp [withTransaction]), ?_, h.whole, ?_⟩
    · rw [withMessages, List.foldl_cons, ← withMessages, h.transactions]
      simp [withTransaction]
      omega
    · rw [withMessages, List.foldl_cons, ← withMessages, h.tree, tree_withTransaction hw]
      apply List.ext_getElem?
      intro i
      rw [List.getElem?_modify, List.getElem?_modify, List.getElem?_modify]
      cases b.tree[i]? with
      | none => rfl
      | some w => by_cases hj : jb = i <;> simp [hj]

end TaskBuilder

end Tarantula
