import Tarantula.ByteBuffer

/-! The rows of a record: an index row under the composite key of the record, with the
header as its value, and a data row for a revision. -/

namespace Tarantula

structure Header where
  revision : UInt64
  factoryId : UInt32
  classId : UInt32
  timestamp : UInt64
  size : UInt32
  updatable : Bool
  state : UInt32
  deriving DecidableEq, Repr, Inhabited

def dataStateDeleted : UInt32 := 2

def compositKeyMax : Nat := 500

def indexPrefix : Bytes := [36, 95, 95, 95, 75, 73, 95, 95, 95, 36]

structure KeyIndex where
  ringPrefix : UInt32
  key : Bytes
  header : Header
  deriving DecidableEq, Repr

namespace KeyIndex

def writeKey (k : KeyIndex) (b : ByteBuffer) : Option ByteBuffer := do
  let b ← b.writeString indexPrefix
  let b ← b.writeUInt32 k.ringPrefix
  let b ← b.writeUInt32 k.header.factoryId
  let b ← b.writeUInt32 k.header.classId
  let b ← b.writeInt32 (Int32.ofNat k.key.length)
  b.put k.key

def write (h : Header) (b : ByteBuffer) : Option ByteBuffer := do
  let b ← b.writeUInt64 h.revision
  let b ← b.writeUInt64 h.timestamp
  let b ← b.writeUInt32 h.size
  let b ← b.writeBool h.updatable
  b.writeUInt32 h.state

/-- The fields are assigned one by one: an error leaves the header half read. -/
def read (h : Header) (r : Bytes) : Header × Bool :=
  match readUInt64 r with
  | none => (h, false)
  | some (rev, r) =>
    let h := { h with revision := rev }
    match readUInt64 r with
    | none => (h, false)
    | some (ts, r) =>
      let h := { h with timestamp := ts }
      match readUInt32 r with
      | none => (h, false)
      | some (sz, r) =>
        let h := { h with size := sz }
        match readBool r with
        | none => (h, false)
        | some (mtu, r) =>
          let h := { h with updatable := mtu }
          match readUInt32 r with
          | none => (h, false)
          | some (st, _) => ({ h with state := st }, true)

def ofOption {α : Type} : Option α → Except Fault α
  | none => .error .error
  | some a => .ok a

def readKey (k : KeyIndex) (r : Bytes) : Except Fault KeyIndex := do
  let (_, r) ← readString r
  let (ringPrefix, r) ← ofOption (readUInt32 r)
  let (fid, r) ← ofOption (readUInt32 r)
  let (cid, r) ← ofOption (readUInt32 r)
  let (klen, r) ← ofOption (readInt32 r)
  let (key, _) ← readSome klen r
  return { ringPrefix, key, header := { k.header with factoryId := fid, classId := cid } }

def val (h : Header) (bytes : Bytes) : Header × Bool :=
  match (ByteBuffer.new compositKeyMax).put bytes with
  | none => (h, false)
  | some b => read h b.bytes

def compositKey (k : KeyIndex) : Option Bytes :=
  (k.writeKey (.new compositKeyMax)).map (·.bytes)

def value (h : Header) : Option Bytes := (write h (.new compositKeyMax)).map (·.bytes)

def pair (k : KeyIndex) : Option (Bytes × Bytes) := do
  let key ← k.compositKey
  let value ← value k.header
  return (key, value)

/-- The header an index row holds, if its bytes are those of a header. -/
def decode (bytes : Bytes) : Option Header :=
  if (val default bytes).2 then some (val default bytes).1 else none

def lookupPrefix (p : Bytes) : Bytes :=
  (ByteBuffer.writeEach (.new compositKeyMax) [(·.writeString p)]).bytes

def lookupDataKey (k : KeyIndex) : Bytes :=
  (ByteBuffer.writeEach (.new compositKeyMax)
    [(·.writeUInt32 k.header.factoryId), (·.writeUInt32 k.header.classId),
      (·.writeInt32 (Int32.ofNat k.key.length)), (·.put k.key),
      (·.writeUInt64 k.header.revision)]).bytes

/-- `core.Import` of an index row with a buffer of the given size. -/
def importRow (k : KeyIndex) (key value : Bytes) (size : Nat) : Except Fault KeyIndex := do
  let b ← ofOption ((ByteBuffer.new size).put key)
  let k ← k.readKey b.bytes
  let b ← ofOption ((ByteBuffer.new size).put value)
  let (header, ok) := read k.header b.bytes
  if ok then return { k with header } else .error .error

end KeyIndex

def indexBytes (ringPrefix factoryId classId : UInt32) (key : Bytes) : Bytes :=
  beBytes 4 10 ++ (indexPrefix ++ (beBytes 4 ringPrefix.toNat ++ (beBytes 4 factoryId.toNat ++
    (beBytes 4 classId.toNat ++ (beBytes 4 (Int32.ofNat key.length).toUInt32.toNat ++ key)))))

def rowBytes (h : Header) : Bytes :=
  beBytes 8 h.revision.toNat ++ (beBytes 8 h.timestamp.toNat ++ (beBytes 4 h.size.toNat ++
    ([if h.updatable then 1 else 0] ++ beBytes 4 h.state.toNat)))

def dataBytes (factoryId classId : UInt32) (key : Bytes) (revision : UInt64) : Bytes :=
  beBytes 4 factoryId.toNat ++ (beBytes 4 classId.toNat ++
    (beBytes 4 (Int32.ofNat key.length).toUInt32.toNat ++ (key ++ beBytes 8 revision.toNat)))

/-- The header with everything an index row stores taken from `h'`. -/
def Header.withRow (h h' : Header) : Header :=
  { h' with factoryId := h.factoryId, classId := h.classId }

/-- The two headers belong to the same class of records. -/
def Header.SameIds (h h' : Header) : Prop := h.factoryId = h'.factoryId ∧ h.classId = h'.classId

theorem Header.SameIds.trans {a b c : Header} (h : a.SameIds b) (h' : b.SameIds c) : a.SameIds c :=
  ⟨h.1.trans h'.1, h.2.trans h'.2⟩

namespace KeyIndex

theorem writeKey_eq (k : KeyIndex) (b : ByteBuffer) :
    k.writeKey b =
      b.put (indexBytes k.ringPrefix k.header.factoryId k.header.classId k.key) := by
  have hten : (Int32.ofNat indexPrefix.length).toUInt32.toNat = 10 := by decide
  simp only [writeKey, ByteBuffer.writeString, ByteBuffer.writeInt32, ByteBuffer.writeUInt32,
    Option.bind_eq_bind, ByteBuffer.put_bind_put, hten, indexBytes, List.append_assoc]

theorem write_eq (h : Header) (b : ByteBuffer) : write h b = b.put (rowBytes h) := by
  simp only [write, ByteBuffer.writeUInt64, ByteBuffer.writeUInt32, ByteBuffer.writeBool,
    Option.bind_eq_bind, ByteBuffer.put_bind_put, rowBytes]

theorem length_indexBytes (ringPrefix factoryId classId : UInt32) (key : Bytes) :
    (indexBytes ringPrefix factoryId classId key).length = 30 + key.length := by
  simp only [indexBytes, List.length_append, length_beBytes, indexPrefix, List.length_cons,
    List.length_nil]
  omega

@[simp] theorem length_rowBytes (h : Header) : (rowBytes h).length = 25 := by
  simp [rowBytes]

theorem compositKey_eq (k : KeyIndex) :
    k.compositKey = if 30 + k.key.length ≤ compositKeyMax then
      some (indexBytes k.ringPrefix k.header.factoryId k.header.classId k.key) else none := by
  rw [compositKey, writeKey_eq, ByteBuffer.map_bytes_new_put, length_indexBytes]

theorem value_eq (h : Header) : value h = some (rowBytes h) := by
  rw [value, write_eq, ByteBuffer.map_bytes_new_put, length_rowBytes, if_pos (by decide)]

theorem lookupDataKey_eq {k : KeyIndex} (h : k.key.length + 20 ≤ compositKeyMax) :
    k.lookupDataKey = dataBytes k.header.factoryId k.header.classId k.key k.header.revision := by
  have hw := ByteBuffer.bytes_writeEach (.new compositKeyMax)
    [beBytes 4 k.header.factoryId.toNat, beBytes 4 k.header.classId.toNat,
      beBytes 4 (Int32.ofNat k.key.length).toUInt32.toNat, k.key,
      beBytes 8 k.header.revision.toNat] ?_
  · refine hw.trans ?_
    simp only [ByteBuffer.new, List.nil_append, List.flatten_cons, List.flatten_nil,
      List.append_nil, dataBytes]
  · simp only [ByteBuffer.new, List.nil_append, List.flatten_cons, List.flatten_nil,
      List.append_nil, List.length_append, length_beBytes]
    omega

theorem read_rowBytes (h h' : Header) : read h (rowBytes h') = (h.withRow h', true) := by
  have hst : readUInt32 (beBytes 4 h'.state.toNat) = some (h'.state, []) := by
    simpa using readUInt32_append h'.state []
  simp only [read, rowBytes, readUInt64_append, readUInt32_append, readBool_append, hst]
  rfl

theorem val_rowBytes (h h' : Header) : val h (rowBytes h') = (h.withRow h', true) := by
  have hput := ByteBuffer.map_bytes_new_put compositKeyMax (rowBytes h')
  rw [length_rowBytes, if_pos (by decide)] at hput
  obtain ⟨b, hb, hbytes⟩ := Option.map_eq_some_iff.mp hput
  simp only [val, hb, hbytes, read_rowBytes]

theorem read_cases (r : Bytes) :
    (∃ d, ∀ h, read h r = (h.withRow d, true)) ∨ ∀ h, (read h r).2 = false := by
  cases h₁ : readUInt64 r with
  | none => exact .inr fun h => by simp only [read, h₁]
  | some p₁ =>
    cases h₂ : readUInt64 p₁.2 with
    | none => exact .inr fun h => by simp only [read, h₁, h₂]
    | some p₂ =>
      cases h₃ : readUInt32 p₂.2 with
      | none => exact .inr fun h => by simp only [read, h₁, h₂, h₃]
      | some p₃ =>
        cases h₄ : readBool p₃.2 with
        | none => exact .inr fun h => by simp only [read, h₁, h₂, h₃, h₄]
        | some p₄ =>
          cases h₅ : readUInt32 p₄.2 with
          | none => exact .inr fun h => by simp only [read, h₁, h₂, h₃, h₄, h₅]
          | some p₅ =>
            refine .inl ⟨⟨p₁.1, 0, 0, p₂.1, p₃.1, p₄.1, p₅.1⟩, fun h => ?_⟩
            simp only [read, h₁, h₂, h₃, h₄, h₅, Header.withRow]

theorem val_ids (h : Header) (bytes : Bytes) : (val h bytes).1.SameIds h := by
  unfold val
  split
  · exact ⟨rfl, rfl⟩
  · unfold read
    repeat' split
    all_goals exact ⟨rfl, rfl⟩

/-- Whether a row can be read, and what is read, does not depend on the header it is
read into. -/
theorem val_cases (bytes : Bytes) :
    (∃ d, decode bytes = some d ∧ ∀ h, val h bytes = (h.withRow d, true)) ∨
      (decode bytes = none ∧ ∀ h, (val h bytes).2 = false) := by
  have hval : (∃ d, ∀ h, val h bytes = (h.withRow d, true)) ∨ ∀ h, (val h bytes).2 = false := by
    unfold val
    cases (ByteBuffer.new compositKeyMax).put bytes with
    | none => exact .inr fun h => rfl
    | some b => exact read_cases b.bytes
  rcases hval with ⟨d, hd⟩ | hn
  · refine .inl ⟨_, by simp only [decode, hd, if_true]; rfl, fun h => ?_⟩
    rw [hd]
    rfl
  · exact .inr ⟨by simp [decode, hn], hn⟩

end KeyIndex

-- the codec is used through the equations above only
attribute [irreducible] KeyIndex.compositKey KeyIndex.val KeyIndex.value

end Tarantula
