/-! Buffered channels in the manner of Go: a send on a closed channel panics, a send into
a full buffer waits, and what a closed channel still holds can be received. -/

namespace Tarantula

structure Chan (α : Type) where
  cap : Nat
  buf : List α
  closed : Bool
  deriving DecidableEq, Repr

/-- The outcome of a send. -/
inductive Sent (α : Type)
  | panics | blocks
  | sent (c : Chan α)

namespace Chan

variable {α : Type} {c d : Chan α} {x : α}

def make (cap : Nat) : Chan α := ⟨cap, [], false⟩

def send (c : Chan α) (x : α) : Sent α :=
  if c.closed then .panics
  else if c.buf.length < c.cap then .sent { c with buf := c.buf ++ [x] }
  else .blocks

/-- A send that gives up where it would wait. -/
def offer (c : Chan α) (x : α) : Chan α :=
  match c.send x with
  | .sent d => d
  | _ => c

/-- `none` where the receiver waits; the value is missing where the channel is closed and
drained. -/
def receive (c : Chan α) : Option (Option α × Chan α) :=
  match c.buf with
  | x :: rest => some (some x, { c with buf := rest })
  | [] => if c.closed then some (none, c) else none

/-- `none` where the channel has been closed before. -/
def close (c : Chan α) : Option (Chan α) :=
  if c.closed then none else some { c with closed := true }

theorem send_panics_iff : c.send x = .panics ↔ c.closed = true := by
  unfold send
  split
  · simp [*]
  · split <;> simp [*]

theorem send_sent (h : c.send x = .sent d) : d = { c with buf := c.buf ++ [x] } := by
  unfold send at h
  split at h
  · cases h
  · split at h
    · cases h
      rfl
    · cases h

theorem send_sent_iff : (∃ d, c.send x = .sent d) ↔ (!c.closed && c.buf.length < c.cap) = true := by
  unfold send
  constructor
  · rintro ⟨d, h⟩
    split at h
    · cases h
    · split at h
      · next hc hlt => simp [hc, hlt]
      · cases h
  · intro h
    simp only [Bool.and_eq_true, Bool.not_eq_true', decide_eq_true_eq] at h
    rw [if_neg (by simp [h.1]), if_pos h.2]
    exact ⟨_, rfl⟩

theorem mem_offer {y : α} (h : y ∈ (c.offer x).buf) : y ∈ c.buf ∨ y = x := by
  unfold offer at h
  split at h
  · next d hd =>
    rw [send_sent hd] at h
    simpa using h
  · exact .inl h

theorem offer_closed (c : Chan α) (x : α) : (c.offer x).closed = c.closed := by
  unfold offer
  split
  · next d hd => rw [send_sent hd]
  · rfl

theorem subset_offer : c.buf ⊆ (c.offer x).buf := by
  unfold offer
  split
  · next d hd =>
    rw [send_sent hd]
    exact List.subset_append_left _ _
  · exact List.Subset.refl _

theorem offer_room (ho : c.closed = false) (h : c.buf.length < c.cap) : x ∈ (c.offer x).buf := by
  simp [offer, send, ho, h]

theorem receive_some (h : c.receive = some (some x, d)) :
    ∃ rest, c.buf = x :: rest ∧ d = { c with buf := rest } := by
  unfold receive at h
  split at h
  · next y rest hb =>
    cases h
    exact ⟨rest, hb, rfl⟩
  · split at h <;> cases h

theorem receive_none (h : c.receive = some (none, d)) :
    c.closed = true ∧ c.buf = [] ∧ d = c := by
  unfold receive at h
  split at h
  · cases h
  · next hb =>
    split at h
    · next hc =>
      cases h
      exact ⟨hc, hb, rfl⟩
    · cases h

theorem receive_closed {o : Option α} (h : c.receive = some (o, d)) : d.closed = c.closed := by
  cases o with
  | none => rw [(receive_none h).2.2]
  | some x =>
    obtain ⟨rest, -, hd⟩ := receive_some h
    rw [hd]

theorem receive_ne_none (h : c.buf ≠ []) : c.receive ≠ none := by
  unfold receive
  split
  · exact Option.some_ne_none _
  · next hb => exact absurd hb h

theorem close_some (h : c.close = some d) : d = { c with closed := true } := by
  unfold close at h
  split at h
  · cases h
  · cases h
    rfl

end Chan

end Tarantula
