import Mathlib.Data.List.Basic

/-! Functions that call out to the world, defer calls and may panic, as trees of their calls. Deferred
calls are made when the function is left, by a return or a panic, the last one first. A monitor follows
the calls with a state and refuses those out of order; weakest preconditions tell which functions it
accepts, whatever the world answers. -/

namespace Tarantula

inductive Body (C : Type) (Ans : C → Type) (α : Type)
  | ret (a : α)
  | panics
  | call (c : C) (next : Ans c → Body C Ans α)
  | deferred (c : C) (next : Body C Ans α)

namespace Body

variable {C : Type} {Ans : C → Type} {α β σ : Type}

def bind : Body C Ans α → (α → Body C Ans β) → Body C Ans β
  | ret a, f => f a
  | panics, _ => panics
  | call c next, f => call c fun x => (next x).bind f
  | deferred c next, f => deferred c (next.bind f)

instance instMonad : Monad (Body C Ans) where
  pure := ret
  bind := bind

def perform (c : C) : Body C Ans (Ans c) := call c ret

/-- The call is made when the function is left. -/
def defer (c : C) : Body C Ans Unit := deferred c (ret ())

/-- The deferred calls, and then the rest. -/
def unwind (rest : Body C Ans α) : List C → Body C Ans α
  | [] => rest
  | c :: cs => call c fun _ => unwind rest cs

/-- The deferred calls are made at the exits. -/
def scope : Body C Ans α → List C → Body C Ans α
  | ret a, cs => unwind (ret a) cs
  | panics, cs => unwind panics cs
  | call c next, cs => call c fun x => (next x).scope cs
  | deferred c next, cs => next.scope (c :: cs)

/-- The function as its caller sees it. -/
def func (p : Body C Ans α) : Body C Ans α := p.scope []

abbrev Event (C : Type) (Ans : C → Type) := (c : C) × Ans c

/-- What the world answers to a call, after the calls before it. -/
abbrev World (C : Type) (Ans : C → Type) := List (Event C Ans) → (c : C) → Ans c

/-- The result, where `none` is a panic, the calls so far, and the calls that are deferred. -/
def run (w : World C Ans) : Body C Ans α → List (Event C Ans) → List C →
    Option α × List (Event C Ans) × List C
  | ret a, h, cs => (some a, h, cs)
  | panics, h, cs => (none, h, cs)
  | call c next, h, cs => (next (w h c)).run w (h ++ [⟨c, w h c⟩]) cs
  | deferred c next, h, cs => next.run w h (c :: cs)

def result (w : World C Ans) (p : Body C Ans α) : Option α := (p.func.run w [] []).1

def trace (w : World C Ans) (p : Body C Ans α) : List (Event C Ans) := (p.func.run w [] []).2.1

section Run

variable (w : World C Ans)

theorem run_bind (p : Body C Ans α) (f : α → Body C Ans β) (past : List (Event C Ans)) (cs : List C) :
    (p >>= f).run w past cs = (p.run w past cs).1.elim (none, (p.run w past cs).2) fun a =>
      (f a).run w (p.run w past cs).2.1 (p.run w past cs).2.2 := by
  show (p.bind f).run w past cs = _
  induction p generalizing past cs with
  | ret a => rfl
  | panics => rfl
  | call c next ih => exact ih _ _ _
  | deferred c next ih => exact ih _ _

theorem run_unwind (rest : Body C Ans α) (past : List (Event C Ans)) (ds cs : List C) :
    ∃ later, (rest.unwind ds).run w past cs = rest.run w (past ++ later) cs ∧ later.map (·.1) = ds := by
  induction ds generalizing past with
  | nil => exact ⟨[], by rw [List.append_nil]; rfl, rfl⟩
  | cons d ds ih =>
    obtain ⟨later, hrun, hcalls⟩ := ih (past ++ [⟨d, w past d⟩])
    refine ⟨⟨d, w past d⟩ :: later, ?_, by rw [List.map_cons, hcalls]⟩
    rw [unwind, run, hrun, List.append_assoc, List.singleton_append]

theorem trace_eq (p : Body C Ans α) : ∃ later,
    p.trace w = (p.run w [] []).2.1 ++ later ∧ later.map (·.1) = (p.run w [] []).2.2 := by
  suffices h : ∀ past ds cs, ∃ later, ((p.scope ds).run w past cs).2.1 = (p.run w past ds).2.1 ++ later ∧
      later.map (·.1) = (p.run w past ds).2.2 from h [] [] []
  induction p with
  | ret a | panics =>
    intro past ds cs
    obtain ⟨later, hrun, hcalls⟩ := run_unwind w _ past ds cs
    exact ⟨later, by rw [scope, hrun]; rfl, hcalls⟩
  | call c next ih => exact fun past ds cs => ih _ _ ds cs
  | deferred c next ih => exact fun past ds cs => ih past (c :: ds) cs

variable {ε : Type}

theorem run_lift_bind (p : Body C Ans α) (f : α → ExceptT ε (Body C Ans) β) (past : List (Event C Ans))
    (cs : List C) :
    (ExceptT.lift p >>= f : ExceptT ε (Body C Ans) β).run.run w past cs =
      (p >>= fun a => (f a).run).run w past cs := by
  show ((p >>= fun a => ret (.ok a)) >>= ExceptT.bindCont f).run w past cs = _
  rw [run_bind, run_bind, run_bind]
  cases (p.run w past cs).1 <;> rfl

theorem run_bind_ok {p : ExceptT ε (Body C Ans) α} {a : α} (f : α → ExceptT ε (Body C Ans) β)
    {past : List (Event C Ans)} {cs : List C} (h : (p.run.run w past cs).1 = some (.ok a)) :
    (p >>= f).run.run w past cs = (f a).run.run w (p.run.run w past cs).2.1 (p.run.run w past cs).2.2 := by
  show (p.run >>= ExceptT.bindCont f).run w past cs = _
  rw [run_bind, h]
  rfl

theorem run_bind_stop {p : ExceptT ε (Body C Ans) α} (f : α → ExceptT ε (Body C Ans) β)
    {past : List (Event C Ans)} {cs : List C} (h : ∀ a, (p.run.run w past cs).1 ≠ some (.ok a)) :
    ((p >>= f).run.run w past cs).2 = (p.run.run w past cs).2 := by
  show ((p.run >>= ExceptT.bindCont f).run w past cs).2 = _
  rw [run_bind]
  match hr : (p.run.run w past cs).1 with
  | none => rfl
  | some (.error e) => rfl
  | some (.ok a) => exact absurd hr (h a)

end Run

end Body

/-- The state after a call, or a refusal. -/
abbrev Monitor (C : Type) (Ans : C → Type) (σ : Type) := σ → (c : C) → Ans c → Option σ

namespace Monitor

variable {C : Type} {Ans : C → Type} {α β σ : Type} (δ : Monitor C Ans σ)

/-- The state after the calls of a trace. -/
def follow (s : σ) (events : List (Body.Event C Ans)) : Option σ := events.foldlM (fun s e => δ s e.1 e.2) s

/-- From `s`, with `cs` deferred, no call is refused, and the function is left with `Q`. -/
def wp : Body C Ans α → (Option α → σ → List C → Prop) → σ → List C → Prop
  | .ret a, Q, s, cs => Q (some a) s cs
  | .panics, Q, s, cs => Q none s cs
  | .call c next, Q, s, cs => ∀ x, ∃ s', δ s c x = some s' ∧ wp (next x) Q s' cs
  | .deferred c next, Q, s, cs => wp next Q s (c :: cs)

/-- The deferred calls can be made, and lead to `Q`. -/
def unwinds (Q : σ → Prop) : List C → σ → Prop
  | [], s => Q s
  | c :: cs, s => ∀ x, ∃ s', δ s c x = some s' ∧ unwinds Q cs s'

section Rules

variable {δ} {Q Q' : Option α → σ → List C → Prop} {s : σ} {cs : List C}

@[simp] theorem wp_bind (p : Body C Ans α) (f : α → Body C Ans β) (Q : Option β → σ → List C → Prop) :
    δ.wp (p >>= f) Q s cs ↔ δ.wp p (fun r s cs => r.elim (Q none s cs) fun a => δ.wp (f a) Q s cs) s cs := by
  show δ.wp (p.bind f) Q s cs ↔ _
  induction p generalizing s cs with
  | ret a => rfl
  | panics => rfl
  | call c next ih => simp only [Body.bind, wp, ih]
  | deferred c next ih => exact ih

theorem wp_unwind (rest : Body C Ans α) (ds : List C) :
    δ.wp (rest.unwind ds) Q s cs ↔ δ.unwinds (fun s' => δ.wp rest Q s' cs) ds s := by
  induction ds generalizing s with
  | nil => rfl
  | cons d ds ih => simp only [Body.unwind, wp, unwinds, ih]

theorem wp_scope (p : Body C Ans α) (ds : List C) :
    δ.wp (p.scope ds) Q s cs ↔ δ.wp p (fun r s' ds' => δ.unwinds (fun s'' => Q r s'' cs) ds' s') s ds := by
  induction p generalizing s ds with
  | ret a => exact wp_unwind _ ds
  | panics => exact wp_unwind _ ds
  | call c next ih => simp only [Body.scope, wp, ih]
  | deferred c next ih => exact ih (c :: ds)

/-- A function is called with no deferred calls of its own, and makes those it has left. -/
@[simp] theorem wp_func (p : Body C Ans α) :
    δ.wp p.func Q s cs ↔ δ.wp p (fun r s' ds => δ.unwinds (fun s'' => Q r s'' cs) ds s') s [] := wp_scope p []

theorem unwinds.mono {P P' : σ → Prop} (h : δ.unwinds P cs s) (hP : ∀ s, P s → P' s) : δ.unwinds P' cs s := by
  induction cs generalizing s with
  | nil => exact hP s h
  | cons c cs ih =>
    intro x
    obtain ⟨s', hs, hrest⟩ := h x
    exact ⟨s', hs, ih hrest⟩

theorem wp.mono {p : Body C Ans α} (h : δ.wp p Q s cs) (hQ : ∀ r s cs, Q r s cs → Q' r s cs) :
    δ.wp p Q' s cs := by
  induction p generalizing s cs with
  | ret a => exact hQ _ _ _ h
  | panics => exact hQ _ _ _ h
  | call c next ih =>
    intro x
    obtain ⟨s', hs, hnext⟩ := h x
    exact ⟨s', hs, ih x hnext⟩
  | deferred c next ih => exact ih h

end Rules

section Fallible

variable {δ} {ε : Type} {s : σ} {cs : List C}

/-- How a function goes on after a part that may panic or fail. -/
def onward (Q : Option (Except ε β) → σ → List C → Prop) (next : α → σ → List C → Prop) :
    Option (Except ε α) → σ → List C → Prop
  | none, s, cs => Q none s cs
  | some (.error e), s, cs => Q (some (.error e)) s cs
  | some (.ok a), s, cs => next a s cs

variable {Q : Option (Except ε β) → σ → List C → Prop} {next : α → σ → List C → Prop}

@[simp] theorem wp_run_lift (p : Body C Ans β) :
    δ.wp (ExceptT.lift p : ExceptT ε (Body C Ans) β).run Q s cs ↔
      δ.wp p (fun r s cs => Q (r.map .ok) s cs) s cs := by
  have hrun : (ExceptT.lift p : ExceptT ε (Body C Ans) β).run = p >>= fun b => pure (.ok b) := rfl
  rw [hrun, wp_bind]
  constructor
  · refine fun h => h.mono fun r s cs hr => ?_
    cases r <;> exact hr
  · refine fun h => h.mono fun r s cs hr => ?_
    cases r <;> exact hr

@[simp] theorem wp_run_bind (p : ExceptT ε (Body C Ans) α) (f : α → ExceptT ε (Body C Ans) β) :
    δ.wp (p >>= f).run Q s cs ↔ δ.wp p.run (onward Q fun a s cs => δ.wp (f a).run Q s cs) s cs := by
  rw [ExceptT.run_bind, wp_bind]
  constructor
  · refine fun h => h.mono fun r s cs hr => ?_
    match r with
    | none => exact hr
    | some (.error e) => exact hr
    | some (.ok a) => exact hr
  · refine fun h => h.mono fun r s cs hr => ?_
    match r with
    | none => exact hr
    | some (.error e) => exact hr
    | some (.ok a) => exact hr

end Fallible

variable {δ}

theorem wp_run {p : Body C Ans α} {Q : Option α → σ → List C → Prop} {s : σ} {cs : List C}
    (h : δ.wp p Q s cs) (w : Body.World C Ans) (past : List (Body.Event C Ans)) :
    ∃ s' events, (p.run w past cs).2.1 = past ++ events ∧ δ.follow s events = some s' ∧
      Q (p.run w past cs).1 s' (p.run w past cs).2.2 := by
  induction p generalizing s cs past with
  | ret a => exact ⟨s, [], (List.append_nil _).symm, rfl, h⟩
  | panics => exact ⟨s, [], (List.append_nil _).symm, rfl, h⟩
  | call c next ih =>
    obtain ⟨s', hs, hnext⟩ := h (w past c)
    obtain ⟨s'', events, htrace, hfollow, hQ⟩ := ih (w past c) hnext (past ++ [⟨c, w past c⟩])
    refine ⟨s'', ⟨c, w past c⟩ :: events, ?_, ?_, hQ⟩
    · rw [Body.run, htrace, List.append_assoc, List.singleton_append]
    · rw [follow, List.foldlM_cons, hs]
      exact hfollow
  | deferred c next ih => exact ih h past

/-- Where every call moves a number by what it takes and gives, the trace moves it by the sums. -/
theorem follow_count {held : σ → Nat} {taken given : Body.Event C Ans → Bool}
    (hstep : ∀ s c x s', δ s c x = some s' →
      held s' + (given ⟨c, x⟩).toNat = held s + (taken ⟨c, x⟩).toNat)
    {events : List (Body.Event C Ans)} {s s' : σ} (h : δ.follow s events = some s') :
    held s' + events.countP given = held s + events.countP taken := by
  induction events generalizing s with
  | nil =>
    obtain rfl := Option.some.inj h
    rfl
  | cons e events ih =>
    obtain ⟨c, x⟩ := e
    rw [follow, List.foldlM_cons] at h
    obtain ⟨s₁, hs₁, h⟩ := Option.bind_eq_some_iff.mp h
    have hone := hstep s c x s₁ hs₁
    have hrest := ih h
    rw [List.countP_cons, List.countP_cons]
    have hnat : ∀ b : Bool, b.toNat = if b = true then 1 else 0 := by decide
    rw [hnat, hnat] at hone
    omega

/-- Whatever the world answers, the monitor accepts the calls of the function, and its last state and the
result are as `Q` says. -/
theorem wp_sound {p : Body C Ans α} {Q : Option α → σ → Prop} {s : σ}
    (h : δ.wp p.func (fun r s' _ => Q r s') s []) (w : Body.World C Ans) :
    ∃ s', δ.follow s (p.trace w) = some s' ∧ Q (p.result w) s' := by
  obtain ⟨s', events, htrace, hfollow, hQ⟩ := wp_run h w []
  refine ⟨s', ?_, hQ⟩
  rw [Body.trace, htrace]
  exact hfollow

end Monitor

end Tarantula
