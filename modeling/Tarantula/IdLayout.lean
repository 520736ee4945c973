import Tarantula.Snowflake

/-! The fields of an id can be read back from it, and ids of one node are ordered as their
timestamps and sequence numbers are. -/

namespace Tarantula.Snowflake

theorem toInt_shiftRight (x y : Int64) :
    (x >>> y).toInt = x.toInt / 2 ^ (y.toBitVec.smod 64).toNat := by
  rw [← Int64.toInt_toBitVec, Int64.toBitVec_shiftRight, BitVec.toInt_sshiftRight', Int64.toInt_toBitVec,
    Int.shiftRight_eq_div_pow, Int.natCast_pow]
  rfl

theorem toInt_and_mask {x m : Int64} {i w : Nat} (hx : 0 ≤ x.toInt)
    (hones : m.toBitVec.toNat >>> i = 2 ^ w - 1) :
    (x &&& m).toInt / 2 ^ i = x.toInt / 2 ^ i % 2 ^ w := by
  have hxn := toNat_toBitVec hx
  have hnat : (x &&& m).toBitVec.toNat = x.toBitVec.toNat &&& m.toBitVec.toNat := by
    rw [Int64.toBitVec_and, BitVec.toNat_and]
  have hle : (x &&& m).toBitVec.toNat ≤ x.toBitVec.toNat := by
    rw [hnat]
    exact Nat.and_le_left
  have hlt : x.toBitVec.toNat < 2 ^ 63 := by
    have hx' := x.toInt_lt
    omega
  have hdiv : (x &&& m).toBitVec.toNat / 2 ^ i = x.toBitVec.toNat / 2 ^ i % 2 ^ w := by
    rw [hnat, ← Nat.shiftRight_eq_div_pow, Nat.shiftRight_and_distrib, hones,
      Nat.and_two_pow_sub_one_eq_mod, Nat.shiftRight_eq_div_pow]
  rw [toInt_of_toNat (by omega), ← hxn]
  exact_mod_cast hdiv

variable {s s' : Snowflake}

theorem stamp_nonneg (h : s.Bounded) : 0 ≤ s.stamp.toInt := by
  have hs := stamp_toInt h
  obtain ⟨⟨hn, -⟩, ⟨ht, -⟩, ⟨hq, -⟩⟩ := h
  omega

theorem parse_stamp (h : s.Bounded) (g : Snowflake) :
    g.parse s.stamp = (s.lastTimestamp + g.epochStart, s.nodeId, s.sequence) := by
  have hs := stamp_toInt h
  have h₀ := stamp_nonneg h
  obtain ⟨hn, ht, hq⟩ := h
  have hts : (s.stamp >>> (bitsOfNodeNumber + bitsOfSequence)).toInt = s.lastTimestamp.toInt := by
    have hshift := toInt_shiftRight s.stamp (bitsOfNodeNumber + bitsOfSequence)
    rw [show ((bitsOfNodeNumber + bitsOfSequence).toBitVec.smod 64).toNat = 22 by decide] at hshift
    omega
  have hnode : ((s.stamp &&& (((1 <<< bitsOfNodeNumber) - 1) <<< bitsOfSequence)) >>> bitsOfSequence).toInt =
      s.nodeId.toInt := by
    rw [toInt_shiftRight, show (bitsOfSequence.toBitVec.smod 64).toNat = 12 by decide,
      toInt_and_mask (w := 10) h₀ (by decide)]
    omega
  have hseq : (s.stamp &&& ((1 <<< bitsOfSequence) - 1)).toInt = s.sequence.toInt := by
    have hmask := toInt_and_mask (m := (1 <<< bitsOfSequence) - 1) (i := 0) (w := 12) h₀ (by decide)
    omega
  rw [parse, Int64.toInt_inj.mp hts, Int64.toInt_inj.mp hnode, Int64.toInt_inj.mp hseq]

theorem stamp_le_iff (h : s.Bounded) (h' : s'.Bounded) (hnode : s.nodeId = s'.nodeId) :
    s.stamp ≤ s'.stamp ↔ s.lastTimestamp < s'.lastTimestamp ∨
      s.lastTimestamp = s'.lastTimestamp ∧ s.sequence ≤ s'.sequence := by
  rw [Int64.le_iff_toInt_le, Int64.lt_iff_toInt_lt, Int64.le_iff_toInt_le, ← Int64.toInt_inj,
    stamp_toInt h, stamp_toInt h', hnode]
  have hq := h.seq
  have hq' := h'.seq
  omega

theorem stamp_injective (h : s.Bounded) (h' : s'.Bounded) (heq : s.stamp = s'.stamp) :
    s.lastTimestamp = s'.lastTimestamp ∧ s.nodeId = s'.nodeId ∧ s.sequence = s'.sequence := by
  have hp := parse_stamp h (new 0 0)
  rw [heq, parse_stamp h' (new 0 0)] at hp
  simp only [Prod.mk.injEq] at hp
  obtain ⟨hts, hnode, hseq⟩ := hp
  exact ⟨(Int64.add_left_inj _).mp hts.symm, hnode.symm, hseq.symm⟩

/-- An id that `Id` returns is the stamp of the fields the generator is left with. While they fit
their bits, the stamp is no negative number, `Parse` gives the fields back, no other fields have
the same stamp, and stamps of one node are ordered by timestamp and then by sequence number. -/
theorem id_layout_lossless (h : s.Bounded) (h' : s'.Bounded) :
    (∀ (g : Snowflake) clock id rest, g.id clock = some (some id, s, rest) →
      id = s.stamp ∧ s.nodeId = g.nodeId ∧ s.epochStart = g.epochStart) ∧
    0 ≤ s.stamp ∧
    (∀ g : Snowflake, g.parse s.stamp = (s.lastTimestamp + g.epochStart, s.nodeId, s.sequence)) ∧
    (s.stamp = s'.stamp →
      s.lastTimestamp = s'.lastTimestamp ∧ s.nodeId = s'.nodeId ∧ s.sequence = s'.sequence) ∧
    (s.nodeId = s'.nodeId → (s.stamp ≤ s'.stamp ↔ s.lastTimestamp < s'.lastTimestamp ∨
      s.lastTimestamp = s'.lastTimestamp ∧ s.sequence ≤ s'.sequence)) := by
  refine ⟨?_, Int64.le_iff_toInt_le.mpr (stamp_nonneg h), parse_stamp h, stamp_injective h h',
    stamp_le_iff h h'⟩
  intro g clock id rest hid
  obtain ⟨used, now, -, ⟨hnone, -⟩ | ⟨hret, sequence, -, hs⟩⟩ := id_cases hid
  · cases hnone
  · exact ⟨Option.some.inj hret, by rw [hs], by rw [hs]⟩

/-- Two calls, on the last node and in the last two milliseconds with the epoch of 2020: the first
one returns the last sequence number of a millisecond, the second one the first of the next. -/
theorem id_layout_lossless_sample :
    ∃ s s' : Snowflake,
      (⟨1023, 1577836800000, 2199023255550, 4094⟩ : Snowflake).id [3776860055550, 3776860055551] =
        some (some 9223372036850581503, s, [3776860055551]) ∧
      s.id [3776860055551] = some (some 9223372036854771712, s', []) ∧
      s.Bounded ∧ s'.Bounded ∧ 9223372036850581503 = s.stamp ∧ 9223372036854771712 = s'.stamp ∧
      s.stamp < s'.stamp ∧ s'.parse s'.stamp = (3776860055551, 1023, 0) := by
  have h : Bounded ⟨1023, 1577836800000, 2199023255550, 4095⟩ := ⟨by decide, by decide, by decide⟩
  have h' : Bounded ⟨1023, 1577836800000, 2199023255551, 0⟩ := ⟨by decide, by decide, by decide⟩
  obtain ⟨hreturn, -, -, hinj, hle⟩ := id_layout_lossless h h'
  obtain ⟨hreturn', -, hparse, -, -⟩ := id_layout_lossless h' h
  have hid : (⟨1023, 1577836800000, 2199023255550, 4094⟩ : Snowflake).id
      [3776860055550, 3776860055551] = some (some 9223372036850581503,
        ⟨1023, 1577836800000, 2199023255550, 4095⟩, [3776860055551]) := by decide +kernel
  have hid' : (⟨1023, 1577836800000, 2199023255550, 4095⟩ : Snowflake).id [3776860055551] =
      some (some 9223372036854771712, ⟨1023, 1577836800000, 2199023255551, 0⟩, []) := by decide +kernel
  refine ⟨_, _, hid, hid', h, h', (hreturn _ _ _ _ hid).1, (hreturn' _ _ _ _ hid').1, ?_, hparse _⟩
  refine Int64.lt_of_le_of_ne ((hle rfl).mpr (.inl (by decide))) fun heq => ?_
  exact absurd (hinj heq).1 (by decide)

end Tarantula.Snowflake
