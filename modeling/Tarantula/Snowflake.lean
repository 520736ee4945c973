import Mathlib.Algebra.Group.Int.Defs
import Mathlib.Algebra.Group.Nat.Defs
import Mathlib.Data.List.Chain
import Mathlib.Data.List.GetD
import Mathlib.Order.Monotone.Basic

/-! The id generator of a node. An id is a timestamp in milliseconds, a node id of 10 bits and
a sequence number of 12 bits. A call of `Id` reads the clock once, or until it has moved when
the sequence numbers of a millisecond are used up. -/

namespace Tarantula

theorem toNat_toBitVec {x : Int64} (h : 0 ≤ x.toInt) : (x.toBitVec.toNat : Int) = x.toInt := by
  have hc := BitVec.toInt_eq_toNat_cond x.toBitVec
  rw [Int64.toInt_toBitVec] at hc
  have hlt := x.toBitVec.isLt
  split at hc <;> omega

theorem toInt_of_toNat {x : Int64} (h : x.toBitVec.toNat < 2 ^ 63) : x.toInt = x.toBitVec.toNat := by
  rw [← Int64.toInt_toBitVec, BitVec.toInt_eq_toNat_of_lt (by omega)]

def bitsOfNodeNumber : Int64 := 10

def bitsOfSequence : Int64 := 12

def maxSequence : Int64 := (1 <<< bitsOfSequence) - 1

structure Snowflake where
  nodeId : Int64
  epochStart : Int64
  lastTimestamp : Int64
  sequence : Int64
  deriving DecidableEq, Repr

namespace Snowflake

def new (nodeId epochStart : Int64) : Snowflake := ⟨nodeId, epochStart, -1, 0⟩

/-- The id made of the fields of the generator. -/
def stamp (s : Snowflake) : Int64 :=
  s.lastTimestamp <<< (bitsOfNodeNumber + bitsOfSequence) ||| (s.nodeId <<< bitsOfSequence) ||| s.sequence

/-- The wait loop of `Id`: the first timestamp that is not the last one, and the readings after
it. It is `none` where the readings end before. -/
def await (s : Snowflake) : List Int64 → Option (Int64 × List Int64)
  | [] => none
  | now :: clock =>
    if now - s.epochStart = s.lastTimestamp then s.await clock else some (now - s.epochStart, clock)

/-- The first reading that does not show the last timestamp. -/
def firstOther (s : Snowflake) (clock : List Int64) : Option Int64 :=
  clock.find? fun now => now - s.epochStart ≠ s.lastTimestamp

/-- A call of `Id` with the readings of the clock to come: the id, or `none` for the error
`wrong system clock setting`, the generator after it, and the readings that it has not taken. The
call does not return where the readings end before. -/
def id (s : Snowflake) : List Int64 → Option (Option Int64 × Snowflake × List Int64)
  | [] => none
  | now :: clock =>
    let currentTimestamp := now - s.epochStart
    if currentTimestamp < s.lastTimestamp then some (none, s, clock)
    else if currentTimestamp = s.lastTimestamp then
      let s : Snowflake := { s with sequence := (s.sequence + 1) &&& maxSequence }
      if s.sequence = 0 then
        (s.await clock).map fun (currentTimestamp, clock) =>
          let s : Snowflake := { s with lastTimestamp := currentTimestamp }
          (some s.stamp, s, clock)
      else
        let s : Snowflake := { s with lastTimestamp := currentTimestamp }
        some (some s.stamp, s, clock)
    else
      let s : Snowflake := { s with lastTimestamp := currentTimestamp, sequence := 0 }
      some (some s.stamp, s, clock)

def ids : Nat → Snowflake → List Int64 → List Int64
  | 0, _, _ => []
  | n + 1, s, clock =>
    match s.id clock with
    | none => []
    | some (r, s, clock) => r.toList ++ ids n s clock

/-- `Parse`: the timestamp, the node id and the sequence number of an id. -/
def parse (s : Snowflake) (snowflakeId : Int64) : Int64 × Int64 × Int64 :=
  let nodeIdMask : Int64 := ((1 <<< bitsOfNodeNumber) - 1) <<< bitsOfSequence
  let sequenceMask : Int64 := (1 <<< bitsOfSequence) - 1
  let timestamp := snowflakeId >>> (bitsOfNodeNumber + bitsOfSequence)
  let nodeId := (snowflakeId &&& nodeIdMask) >>> bitsOfSequence
  let sequence := snowflakeId &&& sequenceMask
  (timestamp + s.epochStart, nodeId, sequence)

section Calls

variable {s s' : Snowflake} {clock rest : List Int64} {r : Option Int64}

theorem await_eq_none (h : s.await clock = none) : s.firstOther clock = none := by
  induction clock with
  | nil => rfl
  | cons now clock ih =>
    rw [await] at h
    split at h
    · next heq =>
      rw [firstOther, List.find?_cons_of_neg (by simpa using heq)]
      exact ih h
    · cases h

theorem await_eq_some {ts : Int64} (h : s.await clock = some (ts, rest)) :
    ∃ used now, clock = used ++ now :: rest ∧ s.firstOther clock = some now ∧ ts = now - s.epochStart := by
  induction clock with
  | nil => cases h
  | cons now clock ih =>
    rw [await] at h
    split at h
    · next heq =>
      obtain ⟨used, now', rfl, hfirst, hts⟩ := ih h
      refine ⟨now :: used, now', rfl, ?_, hts⟩
      rw [firstOther, List.find?_cons_of_neg (by simpa using heq)]
      exact hfirst
    · next hne =>
      cases h
      exact ⟨[], now, rfl, List.find?_cons_of_pos (by simpa using hne), rfl⟩

/-- The four ways in which a call returns. -/
theorem id_eq_some {now : Int64} (h : s.id (now :: clock) = some (r, s', rest)) :
    (now - s.epochStart < s.lastTimestamp ∧ r = none ∧ s' = s ∧ rest = clock) ∨
    (r = some s'.stamp ∧
      ((s.lastTimestamp < now - s.epochStart ∧ rest = clock ∧
          s' = { s with lastTimestamp := now - s.epochStart, sequence := 0 }) ∨
        (now - s.epochStart = s.lastTimestamp ∧ (s.sequence + 1) &&& maxSequence ≠ 0 ∧ rest = clock ∧
          s' = { s with lastTimestamp := now - s.epochStart, sequence := (s.sequence + 1) &&& maxSequence }) ∨
        (now - s.epochStart = s.lastTimestamp ∧ (s.sequence + 1) &&& maxSequence = 0 ∧
          ∃ used other, clock = used ++ other :: rest ∧ s.firstOther clock = some other ∧
            s' = { s with lastTimestamp := other - s.epochStart, sequence := 0 }))) := by
  simp only [id] at h
  split at h
  · next hlt =>
    cases h
    exact .inl ⟨hlt, rfl, rfl, rfl⟩
  · next hge =>
    split at h
    · next heq =>
      split at h
      · next hfull =>
        obtain ⟨⟨ts, clock'⟩, hwait, hret⟩ := Option.map_eq_some_iff.mp h
        cases hret
        obtain ⟨used, other, hclock, hfirst, rfl⟩ := await_eq_some hwait
        refine .inr ⟨rfl, .inr (.inr ⟨heq, hfull, used, other, hclock, hfirst, ?_⟩)⟩
        rw [hfull]
      · next hne =>
        cases h
        exact .inr ⟨rfl, .inr (.inl ⟨heq, hne, rfl, rfl⟩)⟩
    · next hne =>
      cases h
      refine .inr ⟨rfl, .inl ⟨?_, rfl, rfl⟩⟩
      rw [Int64.lt_iff_toInt_lt] at hge ⊢
      rw [← Int64.toInt_inj] at hne
      omega

theorem firstOther_ne {other : Int64} (h : s.firstOther clock = some other) :
    other - s.epochStart ≠ s.lastTimestamp := by
  simpa using List.find?_some h

/-- How a call sets the timestamp and the sequence number. -/
inductive Moves (s : Snowflake) (ts sequence : Int64) : Prop
  | later (hts : s.lastTimestamp < ts) (hseq : sequence = 0)
  | same (hts : ts = s.lastTimestamp) (hseq : sequence = (s.sequence + 1) &&& maxSequence)
      (hne : sequence ≠ 0)
  | waited (hts : ts ≠ s.lastTimestamp) (hseq : sequence = 0) (hfull : (s.sequence + 1) &&& maxSequence = 0)

/-- What a call that returns has done, with the last reading that it has taken. -/
theorem id_cases (h : s.id clock = some (r, s', rest)) :
    ∃ used now, clock = used ++ now :: rest ∧
      (r = none ∧ s' = s ∨ r = some s'.stamp ∧ ∃ sequence, s.Moves (now - s.epochStart) sequence ∧
        s' = { s with lastTimestamp := now - s.epochStart, sequence := sequence }) := by
  cases clock with
  | nil => cases h
  | cons now clock =>
    obtain ⟨-, rfl, rfl, rfl⟩ | ⟨hr, hreturned⟩ := id_eq_some h
    · exact ⟨[], now, rfl, .inl ⟨rfl, rfl⟩⟩
    · obtain ⟨hlt, rfl, hs'⟩ | ⟨heq, hne, rfl, hs'⟩ | ⟨-, hfull, used, other, rfl, hfirst, hs'⟩ := hreturned
      · exact ⟨[], now, rfl, .inr ⟨hr, _, .later hlt rfl, hs'⟩⟩
      · exact ⟨[], now, rfl, .inr ⟨hr, _, .same heq rfl hne, hs'⟩⟩
      · exact ⟨now :: used, other, rfl, .inr ⟨hr, _, .waited (firstOther_ne hfirst) rfl hfull, hs'⟩⟩

end Calls

section Layout

structure Bounded (s : Snowflake) : Prop where
  node : 0 ≤ s.nodeId.toInt ∧ s.nodeId.toInt < 1024
  time : 0 ≤ s.lastTimestamp.toInt ∧ s.lastTimestamp.toInt < 2 ^ 41
  seq : 0 ≤ s.sequence.toInt ∧ s.sequence.toInt < 4096

theorem toBitVec_stamp (s : Snowflake) :
    s.stamp.toBitVec = s.lastTimestamp.toBitVec <<< 22 ||| s.nodeId.toBitVec <<< 12 ||| s.sequence.toBitVec :=
  rfl

theorem stamp_toInt {s : Snowflake} (h : s.Bounded) :
    s.stamp.toInt = s.lastTimestamp.toInt * 2 ^ 22 + s.nodeId.toInt * 2 ^ 12 + s.sequence.toInt := by
  have ht := toNat_toBitVec h.time.1
  have hn := toNat_toBitVec h.node.1
  have hq := toNat_toBitVec h.seq.1
  obtain ⟨⟨-, hn'⟩, ⟨-, ht'⟩, ⟨-, hq'⟩⟩ := h
  generalize htv : s.lastTimestamp.toBitVec = t at ht
  generalize hnv : s.nodeId.toBitVec = n at hn
  generalize hqv : s.sequence.toBitVec = q at hq
  have hq₁ : q.toNat < 2 ^ 12 := by omega
  have hn₁ : n.toNat < 2 ^ 10 := by omega
  have ht₁ : t.toNat < 2 ^ 41 := by omega
  have hnat : s.stamp.toBitVec.toNat = t.toNat * 2 ^ 22 + (n.toNat * 2 ^ 12 + q.toNat) := by
    rw [toBitVec_stamp, htv, hnv, hqv, BitVec.or_assoc, BitVec.toNat_or, BitVec.toNat_or,
      BitVec.toNat_shiftLeft, BitVec.toNat_shiftLeft, Nat.shiftLeft_eq, Nat.shiftLeft_eq,
      Nat.mod_eq_of_lt (by omega), Nat.mod_eq_of_lt (by omega), ← Nat.shiftLeft_eq, ← Nat.shiftLeft_eq,
      ← Nat.shiftLeft_add_eq_or_of_lt hq₁, Nat.shiftLeft_eq n.toNat,
      ← Nat.shiftLeft_add_eq_or_of_lt (show n.toNat * 2 ^ 12 + q.toNat < 2 ^ 22 by omega), Nat.shiftLeft_eq]
  rw [toInt_of_toNat (by omega), hnat]
  omega

theorem next_sequence {q : Int64} (h : 0 ≤ q.toInt) :
    ((q + 1) &&& maxSequence).toInt = (q.toInt + 1) % 4096 := by
  have hn := toNat_toBitVec h
  have hnat : ((q + 1) &&& maxSequence).toBitVec.toNat = (q.toBitVec.toNat + 1) % 4096 := by
    have hm : maxSequence.toBitVec.toNat = 2 ^ 12 - 1 := by decide
    have hone : (1 : Int64).toBitVec.toNat = 1 := by decide
    rw [Int64.toBitVec_and, BitVec.toNat_and, hm, Nat.and_two_pow_sub_one_eq_mod, Int64.toBitVec_add,
      BitVec.toNat_add, hone]
    omega
  rw [toInt_of_toNat (by omega), hnat]
  omega

theorem stamp_lt_iff {s : Snowflake} (h : s.Bounded) {ts sequence : Int64}
    (h' : Bounded { s with lastTimestamp := ts, sequence := sequence }) :
    s.stamp < ({ s with lastTimestamp := ts, sequence := sequence } : Snowflake).stamp ↔
      s.lastTimestamp.toInt < ts.toInt ∨
        s.lastTimestamp.toInt = ts.toInt ∧ s.sequence.toInt < sequence.toInt := by
  have hq := h.seq
  have hq' := h'.seq
  have hn := h.node
  rw [Int64.lt_iff_toInt_lt, stamp_toInt h, stamp_toInt h']
  dsimp only at hq' ⊢
  omega

theorem Moves.stamp_lt_iff {s : Snowflake} {ts sequence : Int64} (hm : s.Moves ts sequence) (h : s.Bounded)
    (h' : Bounded { s with lastTimestamp := ts, sequence := sequence }) :
    s.stamp < ({ s with lastTimestamp := ts, sequence := sequence } : Snowflake).stamp ↔
      s.lastTimestamp ≤ ts := by
  rw [Snowflake.stamp_lt_iff h h', Int64.le_iff_toInt_le]
  cases hm with
  | later hts hseq =>
    rw [Int64.lt_iff_toInt_lt] at hts
    omega
  | same hts hseq hne =>
    have hnext := next_sequence h.seq.1
    rw [← hseq] at hnext
    have hz : sequence.toInt ≠ 0 := fun hz => hne (Int64.toInt_inj.mp hz)
    have hq := h.seq
    rw [hts]
    omega
  | waited hts hseq hfull =>
    rw [ne_eq, ← Int64.toInt_inj] at hts
    have hq := h.seq
    subst hseq
    have hz : (0 : Int64).toInt = 0 := rfl
    omega

end Layout

section Runs

variable {s : Snowflake} {clock : List Int64}

/-- The readings of the clock lie in the 2 ^ 41 milliseconds from the epoch on. -/
def InTime (epochStart : Int64) (clock : List Int64) : Prop :=
  ∀ now ∈ clock, epochStart.toInt ≤ now.toInt ∧ now.toInt < epochStart.toInt + 2 ^ 41

/-- Where the sequence numbers are spent and the clock still shows the last timestamp, the first
other reading is a later one. -/
def Onward (s : Snowflake) : List Int64 → Prop
  | [] => True
  | now :: clock => s.sequence = maxSequence → now - s.epochStart = s.lastTimestamp →
      ∀ other ∈ s.firstOther clock, s.lastTimestamp < other - s.epochStart

/-- The generator and the readings before each of the first `n` calls meet the condition. -/
def Steady : Nat → Snowflake → List Int64 → Prop
  | 0, _, _ => True
  | n + 1, s, clock => s.Onward clock ∧
    match s.id clock with
    | none => True
    | some (_, s', clock) => Steady n s' clock

instance (s : Snowflake) : (clock : List Int64) → Decidable (s.Onward clock)
  | [] => inferInstanceAs (Decidable True)
  | _ :: _ => inferInstanceAs (Decidable (_ → _ → ∀ other ∈ _, _))

instance decidableSteady : (n : Nat) → (s : Snowflake) → (clock : List Int64) → Decidable (Steady n s clock)
  | 0, _, _ => inferInstanceAs (Decidable True)
  | n + 1, s, clock => by
    rw [Steady]
    cases s.id clock with
    | none => infer_instance
    | some ret =>
      have := decidableSteady n ret.2.1 ret.2.2
      infer_instance

theorem spent_iff (hq : 0 ≤ s.sequence.toInt ∧ s.sequence.toInt < 4096) :
    (s.sequence + 1) &&& maxSequence = 0 ↔ s.sequence = maxSequence := by
  have hz : (0 : Int64).toInt = 0 := rfl
  have hm : maxSequence.toInt = 4095 := rfl
  rw [← Int64.toInt_inj, next_sequence hq.1, ← Int64.toInt_inj, hz, hm]
  omega

theorem lt_iff_le_of_ne {x y : Int64} (h : y ≠ x) : x < y ↔ x ≤ y := by
  rw [ne_eq, ← Int64.toInt_inj] at h
  rw [Int64.lt_iff_toInt_lt, Int64.le_iff_toInt_le]
  omega

theorem onward_of_ne {now : Int64} (h : now - s.epochStart ≠ s.lastTimestamp) : s.Onward (now :: clock) :=
  fun _ heq => absurd heq h

theorem onward_of_id_none (h : s.id clock = none) : s.Onward clock := by
  cases clock with
  | nil => trivial
  | cons now clock =>
    simp only [id] at h
    split at h
    · cases h
    · split at h
      · split at h
        · rw [Option.map_eq_none_iff] at h
          have hnone := await_eq_none h
          simp [Onward, show s.firstOther clock = none from hnone]
        · cases h
      · cases h

/-- Only a wait loop that ends on an earlier reading goes back. -/
theorem onward_iff {s' : Snowflake} {rest : List Int64} {r : Option Int64}
    (hq : 0 ≤ s.sequence.toInt ∧ s.sequence.toInt < 4096) (h : s.id clock = some (r, s', rest)) :
    s.Onward clock ↔ s.lastTimestamp ≤ s'.lastTimestamp := by
  cases clock with
  | nil => cases h
  | cons now clock =>
    obtain ⟨hlt, -, rfl, -⟩ | ⟨-, hreturned⟩ := id_eq_some h
    · exact iff_of_true (onward_of_ne fun heq => Int64.lt_irrefl (heq ▸ hlt)) (Int64.le_refl _)
    · obtain ⟨hlt, -, rfl⟩ | ⟨heq, hne, -, rfl⟩ | ⟨heq, hfull, -, other, -, hfirst, rfl⟩ := hreturned
      · exact iff_of_true (onward_of_ne fun heq => Int64.lt_irrefl (heq ▸ hlt)) (Int64.le_of_lt hlt)
      · refine iff_of_true (fun hspent => absurd ((spent_iff hq).mpr hspent) hne) ?_
        rw [heq]
        exact Int64.le_refl _
      · simp [Onward, (spent_iff hq).mp hfull, heq, hfirst, lt_iff_le_of_ne (firstOther_ne hfirst)]

theorem toInt_timestamp {epochStart now : Int64}
    (h : epochStart.toInt ≤ now.toInt ∧ now.toInt < epochStart.toInt + 2 ^ 41) :
    (now - epochStart).toInt = now.toInt - epochStart.toInt := by
  rw [Int64.toInt_sub, Int.bmod_eq_of_le_mul_two] <;> omega

theorem InTime.of_append {epochStart now : Int64} {used rest : List Int64}
    (h : InTime epochStart (used ++ now :: rest)) :
    (0 ≤ (now - epochStart).toInt ∧ (now - epochStart).toInt < 2 ^ 41) ∧ InTime epochStart rest := by
  have hnow := h now (by simp)
  refine ⟨?_, fun x hx => h x (by simp [hx])⟩
  rw [toInt_timestamp hnow]
  omega

theorem Moves.sequence_bounds {ts sequence : Int64} (hm : s.Moves ts sequence) (hq : 0 ≤ s.sequence.toInt) :
    0 ≤ sequence.toInt ∧ sequence.toInt < 4096 := by
  have hz : (0 : Int64).toInt = 0 := rfl
  cases hm with
  | later _ hseq =>
    rw [hseq]
    omega
  | same _ hseq _ =>
    rw [hseq, next_sequence hq]
    omega
  | waited _ hseq _ =>
    rw [hseq]
    omega

theorem Moves.bounded {ts sequence : Int64} (hm : s.Moves ts sequence)
    (hn : 0 ≤ s.nodeId.toInt ∧ s.nodeId.toInt < 1024) (hq : 0 ≤ s.sequence.toInt)
    (hts : 0 ≤ ts.toInt ∧ ts.toInt < 2 ^ 41) :
    Bounded { s with lastTimestamp := ts, sequence := sequence } := ⟨hn, hts, hm.sequence_bounds hq⟩

theorem isChain_ids_iff {n : Nat} (h : s.Bounded) (hc : InTime s.epochStart clock) :
    (s.stamp :: ids n s clock).IsChain (· < ·) ↔ Steady n s clock := by
  induction n generalizing s clock with
  | zero => simp [ids, Steady]
  | succ n ih =>
    rw [ids, Steady]
    cases hid : s.id clock with
    | none => simp [onward_of_id_none hid]
    | some ret =>
      obtain ⟨r, s', rest⟩ := ret
      rw [onward_iff h.seq hid]
      obtain ⟨used, now, rfl, ⟨rfl, rfl⟩ | ⟨rfl, sequence, hmove, rfl⟩⟩ := id_cases hid
      · have hih := ih h hc.of_append.2
        simpa using hih
      · have h' := hmove.bounded h.node h.seq.1 hc.of_append.1
        have hih := ih h' hc.of_append.2
        dsimp only [Option.toList_some]
        rw [List.singleton_append, List.isChain_cons_cons, hih, hmove.stamp_lt_iff h h']

theorem onward_new {nodeId epochStart : Int64} : (new nodeId epochStart).Onward clock := by
  cases clock with
  | nil => trivial
  | cons now clock => exact fun h => absurd h (by decide : (0 : Int64) ≠ maxSequence)

theorem isChain_ids_new_iff {n : Nat} {nodeId epochStart : Int64}
    (hn : 0 ≤ nodeId.toInt ∧ nodeId.toInt < 1024) (hc : InTime epochStart clock) :
    (ids n (new nodeId epochStart) clock).IsChain (· < ·) ↔ Steady n (new nodeId epochStart) clock := by
  induction n generalizing clock with
  | zero => simp [ids, Steady]
  | succ n ih =>
    rw [ids, Steady]
    have honward : (new nodeId epochStart).Onward clock := onward_new
    cases hid : (new nodeId epochStart).id clock with
    | none => simp [honward]
    | some ret =>
      obtain ⟨r, s', rest⟩ := ret
      rw [and_iff_right honward]
      obtain ⟨used, now, rfl, ⟨rfl, rfl⟩ | ⟨rfl, sequence, hmove, rfl⟩⟩ := id_cases hid
      · have hih := ih hc.of_append.2
        simpa using hih
      · have hts := hc.of_append.1
        have h' := hmove.bounded hn (show (0 : Int) ≤ (0 : Int64).toInt by decide) hts
        exact isChain_ids_iff (n := n) h' hc.of_append.2

theorem onward_of_forall (h : ∀ now ∈ clock, s.lastTimestamp ≤ now - s.epochStart) : s.Onward clock := by
  cases clock with
  | nil => trivial
  | cons now clock =>
    intro _ _ other hother
    rw [lt_iff_le_of_ne (by simpa using List.find?_some hother)]
    exact h other (List.mem_cons_of_mem _ (List.mem_of_find?_eq_some hother))

theorem steady_of_monotone {n : Nat} (hc : InTime s.epochStart clock)
    (hmono : clock.Pairwise (·.toInt ≤ ·.toInt))
    (hlast : ∀ now ∈ clock, s.lastTimestamp.toInt ≤ now.toInt - s.epochStart.toInt) : Steady n s clock := by
  induction n generalizing s clock with
  | zero => trivial
  | succ n ih =>
    have honward : s.Onward clock := onward_of_forall fun now hnow => by
      rw [Int64.le_iff_toInt_le, toInt_timestamp (hc now hnow)]
      exact hlast now hnow
    rw [Steady, and_iff_right honward]
    cases hid : s.id clock with
    | none => trivial
    | some ret =>
      obtain ⟨r, s', rest⟩ := ret
      obtain ⟨used, now, rfl, ⟨-, rfl⟩ | ⟨-, sequence, -, rfl⟩⟩ := id_cases hid
      · have hlast' := fun x (hx : x ∈ rest) => hlast x (by simp [hx])
        exact ih hc.of_append.2 (List.pairwise_append.mp hmono).2.1.of_cons hlast'
      · have hts := toInt_timestamp (hc now (by simp))
        have hlater := (List.pairwise_cons.mp (List.pairwise_append.mp hmono).2.1)
        refine ih hc.of_append.2 hlater.2 fun x hx => ?_
        dsimp only
        have hle := hlater.1 x hx
        omega

def readings (clock : Nat → Int64) (k : Nat) : List Int64 := (List.range k).map clock

theorem inTime_readings {epochStart : Int64} {clock : Nat → Int64}
    (hc : ∀ i, epochStart.toInt ≤ (clock i).toInt ∧ (clock i).toInt < epochStart.toInt + 2 ^ 41) (k : Nat) :
    InTime epochStart (readings clock k) := by
  intro now hnow
  obtain ⟨i, -, rfl⟩ := List.mem_map.mp hnow
  exact hc i

theorem node_bounds {nodeId : Int64} (hn : 0 ≤ nodeId ∧ nodeId ≤ 1023) :
    0 ≤ nodeId.toInt ∧ nodeId.toInt < 1024 := by
  have h₀ := Int64.le_iff_toInt_le.mp hn.1
  have h₁ := Int64.le_iff_toInt_le.mp hn.2
  rw [show (0 : Int64).toInt = 0 from rfl] at h₀
  rw [show (1023 : Int64).toInt = 1023 from rfl] at h₁
  omega

theorem pairwise_ids_iff {nodeId epochStart : Int64} (hn : 0 ≤ nodeId ∧ nodeId ≤ 1023) {clock : Nat → Int64}
    (hc : ∀ i, epochStart.toInt ≤ (clock i).toInt ∧ (clock i).toInt < epochStart.toInt + 2 ^ 41) (n k : Nat) :
    (ids n (new nodeId epochStart) (readings clock k)).Pairwise (· < ·) ↔
      Steady n (new nodeId epochStart) (readings clock k) := by
  rw [← isChain_ids_new_iff (node_bounds hn) (inTime_readings hc k)]
  exact ⟨List.Pairwise.isChain, fun h => h.pairwise⟩

theorem pairwise_ids_of_monotone {nodeId epochStart : Int64} (hn : 0 ≤ nodeId ∧ nodeId ≤ 1023)
    {clock : Nat → Int64}
    (hc : ∀ i, epochStart.toInt ≤ (clock i).toInt ∧ (clock i).toInt < epochStart.toInt + 2 ^ 41)
    (hmono : ∀ i, clock i ≤ clock (i + 1)) (n k : Nat) :
    (ids n (new nodeId epochStart) (readings clock k)).Pairwise (· < ·) := by
  have hin := inTime_readings hc k
  have hmono' : Monotone fun i => (clock i).toInt :=
    monotone_nat_of_le_succ fun i => Int64.le_iff_toInt_le.mp (hmono i)
  rw [pairwise_ids_iff hn hc]
  refine steady_of_monotone hin ?_ fun now hnow => ?_
  · rw [readings, List.pairwise_map]
    exact List.pairwise_lt_range.imp fun hij => hmono' hij.le
  · have hlast : (new nodeId epochStart).lastTimestamp.toInt = -1 := rfl
    have hepoch : (new nodeId epochStart).epochStart = epochStart := rfl
    have hnow' := hin now hnow
    rw [hepoch]
    omega

/-- The ids of a generator are strictly increasing exactly when every call that has to wait for the
next millisecond finds a later reading first, and so for every clock that does not go back. -/
theorem ids_increasing_iff {nodeId epochStart : Int64} (hn : 0 ≤ nodeId ∧ nodeId ≤ 1023)
    {clock : Nat → Int64}
    (hc : ∀ i, epochStart.toInt ≤ (clock i).toInt ∧ (clock i).toInt < epochStart.toInt + 2 ^ 41)
    (n k : Nat) :
    ((ids n (new nodeId epochStart) (readings clock k)).Pairwise (· < ·) ↔
      Steady n (new nodeId epochStart) (readings clock k)) ∧
    ((∀ i, clock i ≤ clock (i + 1)) →
      (ids n (new nodeId epochStart) (readings clock k)).Pairwise (· < ·)) := by
  exact ⟨pairwise_ids_iff hn hc n k, fun hmono => pairwise_ids_of_monotone hn hc hmono n k⟩

/-- Three calls in two milliseconds, and 4097 calls, the last of which has to wait for millisecond 3. -/
theorem ids_increasing_sample :
    Steady 3 (new 1 0) (readings (fun i => if i < 2 then 5 else 6) 4) ∧
    (ids 3 (new 1 0) (readings (fun i => if i < 2 then 5 else 6) 4)).Pairwise (· < ·) ∧
    (ids 4097 (new 1 0) (readings (fun i => if i < 4098 then 2 else 3) 4099)).Pairwise (· < ·) := by
  have hsteady : Steady 3 (new 1 0) (readings (fun i => if i < 2 then 5 else 6) 4) := by decide
  refine ⟨hsteady, (ids_increasing_iff (by decide) (fun i => ?_) 3 4).1.mpr hsteady,
    (ids_increasing_iff (by decide) (fun i => ?_) 4097 4099).2 fun i => ?_⟩
  · split <;> decide
  · split <;> decide
  · split
    · split <;> decide
    · rw [if_neg (by omega)]
      exact Int64.le_refl _

end Runs

section Exhausted

def second (sequence : Nat) : Snowflake := ⟨1, 0, 2, Int64.ofNat sequence⟩

theorem id_second {q : Nat} (hq : q < 4095) (clock : List Int64) :
    (second q).id (2 :: clock) = some (some (second (q + 1)).stamp, second (q + 1), clock) := by
  have hofNat : ∀ j < 4096, (Int64.ofNat j).toInt = j := fun j hj => Int64.toInt_ofNat_of_lt (by omega)
  have hnext : (Int64.ofNat q + 1) &&& maxSequence = Int64.ofNat (q + 1) := by
    rw [← Int64.toInt_inj, next_sequence (by rw [hofNat q (by omega)]; omega), hofNat q (by omega),
      hofNat (q + 1) (by omega)]
    omega
  have hne : Int64.ofNat (q + 1) ≠ 0 := by
    rw [ne_eq, ← Int64.toInt_inj, hofNat (q + 1) (by omega)]
    exact fun h => Nat.succ_ne_zero q (Int.ofNat_eq_zero.mp h)
  have hnow : (2 : Int64) - 0 = 2 := by decide
  simp only [id, second, hnow, hnext, Int64.lt_irrefl, hne, if_false, if_true]

theorem ids_of_id {s s' : Snowflake} {clock rest : List Int64} {r : Option Int64} (n : Nat)
    (h : s.id clock = some (r, s', rest)) : ids (n + 1) s clock = r.toList ++ ids n s' rest := by
  rw [ids, h]

theorem ids_second {q k : Nat} (hq : q + k ≤ 4095) (n : Nat) (clock : List Int64) :
    ∃ between, ids (k + n) (second q) (List.replicate k 2 ++ clock) =
      between ++ ids n (second (q + k)) clock := by
  induction k generalizing q with
  | zero => exact ⟨[], by simp⟩
  | succ k ih =>
    obtain ⟨between, hb⟩ := ih (q := q + 1) (by omega)
    refine ⟨(second (q + 1)).stamp :: between, ?_⟩
    rw [show k + 1 + n = k + n + 1 by omega, List.replicate_succ, List.cons_append,
      ids_of_id _ (id_second (by omega) _), hb, show q + (k + 1) = q + 1 + k by omega]
    rfl

/-- Millisecond 1 once, then millisecond 2 until its sequence numbers are used up and once more,
and then millisecond 1 again. -/
def setBack : List Int64 := 1 :: 2 :: (List.replicate 4095 2 ++ [2, 1])

theorem readings_getD (l : List Int64) (d : Int64) : readings (fun i => l.getD i d) l.length = l := by
  refine List.ext_getElem (by simp [readings]) fun i hi hi' => ?_
  simp only [readings, List.getElem_map, List.getElem_range, List.getD_eq_getElem _ _ hi']

theorem setBack_inTime : InTime 0 setBack := by
  intro now hnow
  have hcases : now = 1 ∨ now = 2 := by
    simp only [setBack, List.mem_cons, List.mem_append, List.mem_replicate, List.not_mem_nil,
      or_false] at hnow
    rcases hnow with h | h | ⟨-, h⟩ | h | h
    · exact .inl h
    · exact .inr h
    · exact .inr h
    · exact .inr h
    · exact .inl h
  rcases hcases with rfl | rfl <;> decide

theorem ids_setBack : ∃ between,
    ids 4098 (new 1 0) setBack = 4198400 :: 8392704 :: (between ++ [4198400]) := by
  obtain ⟨between, hb⟩ := ids_second (q := 0) (k := 4095) (by omega) 1 [2, 1]
  have h₁ : ∀ clock, (new 1 0).id (1 :: clock) = some (some 4198400, ⟨1, 0, 1, 0⟩, clock) := fun _ => rfl
  have h₂ : ∀ clock, (⟨1, 0, 1, 0⟩ : Snowflake).id (2 :: clock) = some (some 8392704, second 0, clock) :=
    fun _ => rfl
  have h₃ : ids 1 (second 4095) [2, 1] = [4198400] := by decide +kernel
  refine ⟨between, ?_⟩
  rw [setBack, ids_of_id 4097 (h₁ _), ids_of_id 4096 (h₂ _), hb, h₃]
  rfl

/-- The wait loop ends when the clock is set back by a millisecond, and the id that was first
returned is returned again. -/
theorem ids_repeat_after_setBack :
    ∃ clock : Nat → Int64,
      (∀ i, (0 : Int64).toInt ≤ (clock i).toInt ∧ (clock i).toInt < (0 : Int64).toInt + 2 ^ 41) ∧
      ∃ n k, ¬ (ids n (new 1 0) (readings clock k)).Pairwise (· < ·) ∧
        ¬ (ids n (new 1 0) (readings clock k)).Nodup := by
  obtain ⟨between, hids⟩ := ids_setBack
  have hdup : ¬ (ids 4098 (new 1 0) setBack).Nodup := by
    rw [hids]
    simp
  refine ⟨fun i => setBack.getD i 1, fun i => ?_, 4098, setBack.length, ?_⟩
  · dsimp only
    rw [List.getD_eq_getElem?_getD]
    cases hi : setBack[i]? with
    | none => decide
    | some now => exact setBack_inTime now (List.mem_of_getElem? hi)
  · rw [readings_getD]
    refine ⟨fun h => hdup (h.imp fun hlt heq => ?_), hdup⟩
    rw [heq] at hlt
    exact Int64.lt_irrefl hlt

end Exhausted

end Snowflake

end Tarantula
