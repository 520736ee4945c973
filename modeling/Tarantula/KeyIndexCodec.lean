import Tarantula.FieldCodec
import Tarantula.Handoff

/-! The round trip of an index row through `core.Export` and `core.Import`. One buffer is used
for the key and, cleared, for the value. The size of the key is written as 32 signed bits,
and reading back `0` bytes reads all that is left. -/

namespace Tarantula

def ByteBuffer.clear (b : ByteBuffer) : ByteBuffer := .new b.capacity

theorem size_eq_zero_iff (n : Nat) : Int32.ofNat n = 0 ↔ 4294967296 ∣ n := by
  rw [← Int32.toInt_inj, toInt_size, Int32.toInt_zero]
  split_ifs <;> omega

theorem readSome_size_iff (s : Bytes) :
    (∃ r, readSome (Int32.ofNat s.length) s = .ok (s, r)) ↔ s.length < 2 ^ 31 ∨ 2 ^ 32 ∣ s.length := by
  have hsize := toInt_size s.length
  have hzero := size_eq_zero_iff s.length
  unfold readSome
  by_cases hall : Int32.ofNat s.length = 0 ∨ (s.length : Int) ≤ (Int32.ofNat s.length).toInt
  · rw [if_pos hall]
    refine ⟨fun _ => ?_, fun _ => ⟨[], rfl⟩⟩
    rcases hall with h0 | hle
    · exact .inr (hzero.mp h0)
    · rw [hsize] at hle
      split_ifs at hle <;> omega
  · rw [if_neg hall]
    have hout : ¬ (s.length < 2 ^ 31 ∨ 2 ^ 32 ∣ s.length) := by
      rintro (hlt | hdvd)
      · exact hall (.inr (by rw [Int32.toInt_ofNat_of_lt hlt]))
      · exact hall (.inl (hzero.mpr hdvd))
    refine ⟨fun ⟨r, hr⟩ => ?_, fun h => absurd h hout⟩
    by_cases hneg : Int32.ofNat s.length < 0
    · simp [hneg] at hr
    · -- a shorter piece of the key is read
      simp only [hneg, if_false, Except.ok.injEq, Prod.mk.injEq] at hr
      have hlen := congrArg List.length hr.1
      rw [List.length_take] at hlen
      omega

namespace KeyIndex

/-- `core.Export` of an index row with a buffer of the given size. -/
def exportRow (k : KeyIndex) (buffSize : Nat) : Except Fault (Bytes × Bytes) := do
  let buff ← ofOption (k.writeKey (.new buffSize))
  let (key, _) ← readSome 0 buff.bytes
  let buff ← ofOption (write k.header buff.clear)
  let (value, _) ← readSome 0 buff.bytes
  return (key, value)

theorem exportRow_eq (k : KeyIndex) {n : Nat}
    (hk : (indexBytes k.ringPrefix k.header.factoryId k.header.classId k.key).length ≤ n)
    (hv : (rowBytes k.header).length ≤ n) :
    k.exportRow n =
      .ok (indexBytes k.ringPrefix k.header.factoryId k.header.classId k.key, rowBytes k.header) := by
  have hkey : k.writeKey (.new n) = some ⟨n, _, hk⟩ := by
    rw [writeKey_eq]
    exact dif_pos hk
  have hval : write k.header (.new n) = some ⟨n, _, hv⟩ := by
    rw [write_eq]
    exact dif_pos hv
  simp only [exportRow, hkey, ofOption, bind, Except.bind, readSome_zero, ByteBuffer.clear, hval]
  rfl

theorem importRow_exported (k₀ k : KeyIndex) {n : Nat}
    (hk : (indexBytes k.ringPrefix k.header.factoryId k.header.classId k.key).length ≤ n)
    (hv : (rowBytes k.header).length ≤ n) :
    k₀.importRow (indexBytes k.ringPrefix k.header.factoryId k.header.classId k.key)
        (rowBytes k.header) n =
      (readSome (Int32.ofNat k.key.length) k.key).map fun r => ⟨k.ringPrefix, r.1, k.header⟩ := by
  obtain ⟨-, b, hb, hbytes⟩ | ⟨hlt, -⟩ := put_new n
    (indexBytes k.ringPrefix k.header.factoryId k.header.classId k.key)
  · obtain ⟨-, b', hb', hbytes'⟩ | ⟨hlt, -⟩ := put_new n (rowBytes k.header)
    · simp only [importRow, hb, hbytes, hb', hbytes', ofOption, bind, Except.bind, readKey_size]
      cases readSome (Int32.ofNat k.key.length) k.key with
      | error e => rfl
      | ok r =>
        simp only [Except.map, read_rowBytes, if_true]
        rfl
    · omega
  · omega

/-- An export that fits is imported again, into whatever key index, exactly if the size of
the key is below `2 ^ 31`, or a multiple of `2 ^ 32`. The value is the one that `Val` reads
and `Pair` returns, which refuses keys that do not fit. -/
theorem export_import_iff (k : KeyIndex) :
    (∀ n, (indexBytes k.ringPrefix k.header.factoryId k.header.classId k.key).length ≤ n →
      (rowBytes k.header).length ≤ n →
      ∃ x y, k.exportRow n = .ok (x, y) ∧
        (∀ k₀ : KeyIndex, k₀.importRow x y n = .ok k ↔ k.key.length < 2 ^ 31 ∨ 2 ^ 32 ∣ k.key.length) ∧
        (∀ h, val h y = (h.withRow k.header, true)) ∧
        (30 + k.key.length ≤ compositKeyMax → k.compositKey = some x ∧ k.pair = some (x, y))) ∧
    (compositKeyMax < 30 + k.key.length → k.compositKey = none ∧ k.pair = none) := by
  refine ⟨fun n hk hv => ⟨_, _, exportRow_eq k hk hv, fun k₀ => ?_, fun h => val_rowBytes h _,
    fun hf => ?_⟩, fun hf => ?_⟩
  · rw [importRow_exported k₀ k hk hv, ← readSome_size_iff]
    cases hr : readSome (Int32.ofNat k.key.length) k.key with
    | error e => simp [Except.map]
    | ok r =>
      obtain ⟨r₁, r₂⟩ := r
      obtain ⟨p, key, h⟩ := k
      simp [Except.map]
  · have hc : k.compositKey = some _ := (compositKey_eq k).trans (if_pos hf)
    simp only [pair, hc, value_eq, true_and]
    rfl
  · have hc : k.compositKey = none := (compositKey_eq k).trans (if_neg (by omega))
    simp only [pair, hc, true_and]
    rfl

theorem export_import_iff_empty_key :
    ∃ x y, exportRow ⟨7, [], ⟨3, 1, 2, 9, 4, true, 1⟩⟩ 30 = .ok (x, y) ∧
      importRow ⟨0, [5], default⟩ x y 30 = .ok ⟨7, [], ⟨3, 1, 2, 9, 4, true, 1⟩⟩ := by
  obtain ⟨x, y, hx, hi, -⟩ := (export_import_iff ⟨7, [], ⟨3, 1, 2, 9, 4, true, 1⟩⟩).1 30
    (by decide) (by decide)
  exact ⟨x, y, hx, (hi ⟨0, [5], default⟩).mpr (.inl (by decide))⟩

/-- A key of `2 ^ 31` bytes is written with a negative size. -/
theorem import_of_long_key_crashes :
    ∃ x y, exportRow ⟨0, List.replicate (2 ^ 31) 0, default⟩ (2 ^ 31 + 30) = .ok (x, y) ∧
      importRow ⟨0, [], default⟩ x y (2 ^ 31 + 30) = .error .crash := by
  have hlong : ∀ k : KeyIndex, k.key.length = 2 ^ 31 → ∃ x y, k.exportRow (2 ^ 31 + 30) = .ok (x, y) ∧
      importRow ⟨0, [], default⟩ x y (2 ^ 31 + 30) = .error .crash := by
    intro k hlen
    have hk : (indexBytes k.ringPrefix k.header.factoryId k.header.classId k.key).length ≤ 2 ^ 31 + 30 := by
      rw [length_indexBytes, hlen]
      omega
    have hv : (rowBytes k.header).length ≤ 2 ^ 31 + 30 := by
      rw [length_rowBytes]
      omega
    have hcrash : readSome (Int32.ofNat k.key.length) k.key = .error .crash := by
      rw [readSome, hlen]
      rfl
    exact ⟨_, _, exportRow_eq k hk hv, by rw [importRow_exported _ k hk hv, hcrash]; rfl⟩
  exact hlong _ (List.length_replicate ..)

end KeyIndex

end Tarantula
