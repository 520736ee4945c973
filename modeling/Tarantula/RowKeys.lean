import Tarantula.Handoff

/-! The keys under which the rows of a record are stored. Index keys and data keys share one
ordered space; the scan of the index tells them apart by their first bytes. -/

namespace Tarantula

def SetData.dataKey (sd : SetData) : Except Fail Bytes :=
  let ksz := sd.data.key.length
  if compositKeyMax < ksz + 20 then .error (.keySize ksz)
  else .ok (ByteBuffer.writeEach (.new compositKeyMax)
    [(·.writeUInt32 sd.data.header.factoryId), (·.writeUInt32 sd.data.header.classId),
      (·.writeUInt32 (UInt32.ofNat ksz)), (·.put sd.data.key),
      (·.writeUInt64 sd.data.header.revision)]).bytes

/-- `DataKey` of a `GetData`, which writes the size of the key as a signed number. -/
def Request.dataKey (gd : Request) : Except Fail Bytes :=
  let ksz := gd.data.key.length
  if compositKeyMax < ksz + 20 then .error (.keySize ksz)
  else .ok (ByteBuffer.writeEach (.new compositKeyMax)
    [(·.writeUInt32 gd.data.header.factoryId), (·.writeUInt32 gd.data.header.classId),
      (·.writeInt32 (Int32.ofNat ksz)), (·.put gd.data.key),
      (·.writeUInt64 gd.data.header.revision)]).bytes

theorem Request.dataKey_eq (gd : Request) : gd.dataKey = Tarantula.dataKey gd.data.key gd.data.header := rfl

theorem SetData.dataKey_eq (sd : SetData) : sd.dataKey = Tarantula.dataKey sd.data.key sd.data.header := by
  have hsize : ∀ b : ByteBuffer, b.writeUInt32 (UInt32.ofNat sd.data.key.length) =
      b.writeInt32 (Int32.ofNat sd.data.key.length) := fun _ => rfl
  simp only [SetData.dataKey, hsize]
  rfl

theorem dataKey_ok_iff {key x : Bytes} {h : Header} : dataKey key h = .ok x ↔
    key.length + 20 ≤ compositKeyMax ∧ x = dataBytes h.factoryId h.classId key h.revision := by
  by_cases hl : key.length + 20 ≤ compositKeyMax
  · rw [dataKey, if_neg (Nat.not_lt.mpr hl), KeyIndex.lookupDataKey_eq hl]
    simp [hl, eq_comm]
  · simp [dataKey, Nat.not_le.mp hl, hl]

theorem compositKey_some_iff {k : KeyIndex} {x : Bytes} : k.compositKey = some x ↔
    30 + k.key.length ≤ compositKeyMax ∧
      x = indexBytes k.ringPrefix k.header.factoryId k.header.classId k.key := by
  rw [KeyIndex.compositKey_eq]
  by_cases hl : 30 + k.key.length ≤ compositKeyMax <;> simp [hl, eq_comm]

theorem indexBytes_inj {p p' f f' c c' : UInt32} {key key' : Bytes}
    (h : indexBytes p f c key = indexBytes p' f' c' key') : p = p' ∧ f = f' ∧ c = c' ∧ key = key' := by
  have ha : (Address.mk p f c key) = ⟨p', f', c', key'⟩ := Address.index_inj h
  simpa using ha

theorem lookupPrefix_isPrefix (p f c : UInt32) (key : Bytes) :
    KeyIndex.lookupPrefix indexPrefix <+: indexBytes p f c key := by
  have hl : KeyIndex.lookupPrefix indexPrefix = beBytes 4 10 ++ indexPrefix := by decide +kernel
  rw [hl, indexBytes, ← List.append_assoc (beBytes 4 10)]
  exact List.prefix_append ..

/-- The size of an accepted key is less than `2 ^ 24`, so the ninth byte of its data key is
not the `K` of the index. -/
theorem dataBytes_not_indexed {key : Bytes} (hl : key.length + 20 ≤ compositKeyMax) (f c : UInt32)
    (rev : UInt64) : ¬ KeyIndex.lookupPrefix indexPrefix <+: dataBytes f c key rev := by
  rintro ⟨t, ht⟩
  have hz : key.length % 4294967296 / 256 / 256 / 256 = 0 := by
    have hmax : compositKeyMax = 500 := rfl
    omega
  have hninth : (dataBytes f c key rev)[8]? = some 0 := by
    simp [dataBytes, beBytes, hz]
  rw [← ht] at hninth
  cases hninth

/-- Index keys determine their record, data keys their record up to its prefix and the
revision; all three ways to make a data key agree, and the scan of the index sees every
index key and no data key. -/
theorem row_keys_unambiguous :
    (∀ k k' x, KeyIndex.compositKey k = some x → KeyIndex.compositKey k' = some x →
      k.ringPrefix = k'.ringPrefix ∧ k.header.factoryId = k'.header.factoryId ∧
        k.header.classId = k'.header.classId ∧ k.key = k'.key) ∧
    (∀ (sd sd' : SetData) x, sd.dataKey = .ok x → sd'.dataKey = .ok x →
      sd.data.header.factoryId = sd'.data.header.factoryId ∧
        sd.data.header.classId = sd'.data.header.classId ∧ sd.data.key = sd'.data.key ∧
        sd.data.header.revision = sd'.data.header.revision) ∧
    (∀ (sd : SetData) (gd : Request) (k : KeyIndex),
      gd.data.header.SameIds sd.data.header → gd.data.header.revision = sd.data.header.revision →
      gd.data.key = sd.data.key →
      k.header.SameIds sd.data.header → k.header.revision = sd.data.header.revision →
      k.key = sd.data.key →
      gd.dataKey = sd.dataKey ∧ ∀ x, sd.dataKey = .ok x → k.lookupDataKey = x) ∧
    (∀ (sd : SetData) (k : KeyIndex) x, sd.dataKey = .ok x →
      k.compositKey ≠ some x ∧ ¬ KeyIndex.lookupPrefix indexPrefix <+: x) ∧
    ∀ (k : KeyIndex) x, k.compositKey = some x → KeyIndex.lookupPrefix indexPrefix <+: x := by
  refine ⟨fun k k' x hk hk' => ?_, fun sd sd' x hx hx' => ?_,
    fun sd gd k hg hgr hgk hk hkr hkk => ⟨?_, fun x hx => ?_⟩, fun sd k x hx => ?_,
    fun k x hk => ?_⟩
  · obtain ⟨-, rfl⟩ := compositKey_some_iff.mp hk
    obtain ⟨-, he⟩ := compositKey_some_iff.mp hk'
    exact indexBytes_inj he
  · rw [SetData.dataKey_eq] at hx hx'
    obtain ⟨-, rfl⟩ := dataKey_ok_iff.mp hx
    obtain ⟨-, he⟩ := dataKey_ok_iff.mp hx'
    have he : (⟨0, _, _, sd.data.key⟩ : Address).data _ = (⟨0, _, _, sd'.data.key⟩ : Address).data _ := he
    exact Address.data_inj he
  · rw [Request.dataKey_eq, SetData.dataKey_eq]
    simp only [dataKey, KeyIndex.lookupDataKey, hg.1, hg.2, hgk, hgr]
  · rw [SetData.dataKey_eq] at hx
    obtain ⟨hl, rfl⟩ := dataKey_ok_iff.mp hx
    rw [← hkk] at hl
    rw [KeyIndex.lookupDataKey_eq hl, hk.1, hk.2, hkk, hkr]
  · rw [SetData.dataKey_eq] at hx
    obtain ⟨hl, rfl⟩ := dataKey_ok_iff.mp hx
    have hn := dataBytes_not_indexed hl sd.data.header.factoryId sd.data.header.classId
      sd.data.header.revision
    refine ⟨fun hk => hn ?_, hn⟩
    rw [(compositKey_some_iff.mp hk).2]
    exact lookupPrefix_isPrefix ..
  · rw [(compositKey_some_iff.mp hk).2]
    exact lookupPrefix_isPrefix ..

/-- The ids that begin like the scan prefix, with an empty key. -/
theorem row_keys_unambiguous_lookalike :
    SetData.dataKey ⟨0, [], [], ⟨1, 10, 0x245F5F5F, 0, 0, true, 0⟩⟩ =
      .ok [0, 0, 0, 10, 36, 95, 95, 95, 0, 0, 0, 0, 0, 0, 0, 0, 0, 0, 0, 1] ∧
    ¬ KeyIndex.lookupPrefix indexPrefix <+:
      [0, 0, 0, 10, 36, 95, 95, 95, 0, 0, 0, 0, 0, 0, 0, 0, 0, 0, 0, 1] :=
  ⟨by rfl, (row_keys_unambiguous.2.2.2.1 ⟨0, [], [], ⟨1, 10, 0x245F5F5F, 0, 0, true, 0⟩⟩
    ⟨0, [], default⟩ _ (by rfl)).2⟩

end Tarantula
