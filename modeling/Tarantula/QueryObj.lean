import Tarantula.FieldCodec

/-! The codec of queries. `QWrite` drops the errors of its first three writes, `Export` the
others; `QRead` allocates a string of whatever size it is told. -/

namespace Tarantula

def querySizeMax : Nat := 2000

/-- Times are nanoseconds since the epoch, which `UnixMilli` turns into 64-bit milliseconds. -/
structure QueryObj where
  id : Bytes
  factoryId : UInt32
  classId : UInt32
  nodeId : Bytes
  tag : Bytes
  topic : Bytes
  limit : Int32
  offset : Int32
  startTime : Int
  endTime : Int
  deriving DecidableEq, Repr, Inhabited

def toUnixMilli (t : Int) : Int64 := Int64.ofInt (t / 1000000)

def ofUnixMilli (ms : Int64) : Int := ms.toInt * 1000000

def readInt64 (r : Bytes) : Option (Int64 × Bytes) := (readUInt64 r).map fun p => (p.1.toInt64, p.2)

namespace QueryObj

def fields (q : QueryObj) : List (List Bytes × Option Fault) :=
  [(stringField q.id, none),
    ([beBytes 4 q.factoryId.toNat], none),
    ([beBytes 4 q.classId.toNat], none),
    (stringField q.nodeId, some .error),
    (stringField q.tag, some .error),
    (stringField q.topic, some .error),
    ([beBytes 8 (toUnixMilli q.startTime).toUInt64.toNat], some .error),
    ([beBytes 8 (toUnixMilli q.endTime).toUInt64.toNat], some .error),
    ([beBytes 4 q.limit.toUInt32.toNat], some .error),
    ([beBytes 4 q.offset.toUInt32.toNat], some .error)]

def qWrite (q : QueryObj) (buff : ByteBuffer) : ByteBuffer × Option Fault := buff.writeFields q.fields

def qRead : QueryObj → Bytes → QueryObj × Option Fault :=
  readFields
    [readInto readString fun q id => { q with id },
      readInto (readWord readUInt32) fun q fid => { q with factoryId := fid },
      readInto (readWord readUInt32) fun q cid => { q with classId := cid },
      readInto readString fun q nid => { q with nodeId := nid },
      readInto readString fun q tag => { q with tag },
      readInto readString fun q topic => { q with topic },
      readInto (readWord readInt64) fun q st => { q with startTime := ofUnixMilli st },
      readInto (readWord readInt64) fun q et => { q with endTime := ofUnixMilli et },
      readInto (readWord readInt32) fun q lm => { q with limit := lm },
      readInto (readWord readInt32) fun q off => { q with offset := off }]

/-- `Import` of a factory that holds the query `held`. -/
def importQuery (held : QueryObj) (data : Bytes) : QueryObj × Option Fault :=
  match (ByteBuffer.new querySizeMax).put data with
  | none => (held, some .error)
  | some buff => held.qRead buff.bytes

def exportQuery (q : QueryObj) : Except Fault Bytes :=
  match q.qWrite (.new querySizeMax) with
  | (_, some _) => .ok [] -- `return v, nil`
  | (buff, none) => (readSome 0 buff.bytes).map Prod.fst

/-- The `Query` handler up to the scan: the factory of the id makes the query that is read
into. -/
def handle (registry : Bytes → Option QueryObj) (id criteria : Bytes) : Except Fault QueryObj :=
  match registry id with
  | none => .error .error
  | some held =>
    match importQuery held criteria with
    | (q, none) => .ok q
    | (_, some e) => .error e

def encoding (q : QueryObj) : Bytes := (q.fields.map fun f => f.1.flatten).flatten

def inMillis (q : QueryObj) : QueryObj :=
  { q with startTime := q.startTime / 1000000 * 1000000, endTime := q.endTime / 1000000 * 1000000 }

theorem exportQuery_of_none {q : QueryObj} (he : (q.qWrite (.new querySizeMax)).2 = none) :
    q.exportQuery = .ok (q.qWrite (.new querySizeMax)).1.bytes := by
  rw [exportQuery, show q.qWrite (.new querySizeMax) = (_, none) from Prod.ext rfl he]
  simp only [readSome_zero]
  rfl

/-- What fits is written in full. What does not is cut short or left out altogether, and no
error tells. -/
theorem exportQuery_cases (q : QueryObj) :
    q.encoding.length ≤ querySizeMax ∧ q.exportQuery = .ok q.encoding ∨
      querySizeMax < q.encoding.length ∧
        ∃ n < q.encoding.length, q.exportQuery = .ok (q.encoding.take n) := by
  rcases ByteBuffer.writeFields_wrote (.new querySizeMax) q.fields with ⟨he, hw⟩ | ⟨f, hf, he, hp⟩
  · have hbytes : (q.qWrite (.new querySizeMax)).1.bytes = q.encoding := hw.bytes
    refine .inl ⟨?_, ?_⟩
    · rw [← hbytes]
      exact le_of_le_of_eq (ByteBuffer.fits _) hw.capacity
    · rw [exportQuery_of_none he, hbytes]
  · obtain ⟨n, hn, hbytes⟩ := hp.bytes
    refine .inr ⟨hp.full, ?_⟩
    cases hf' : f.2 with
    | some e =>
      rw [hf'] at he
      refine ⟨0, Nat.zero_lt_of_lt hn, ?_⟩
      rw [exportQuery, show q.qWrite (.new querySizeMax) = (_, some e) from Prod.ext rfl he]
      rfl
    | none =>
      rw [hf'] at he
      refine ⟨n, hn, ?_⟩
      have hpart : (q.qWrite (.new querySizeMax)).1.bytes = q.encoding.take n := hbytes
      rw [exportQuery_of_none he, hpart]

theorem importQuery_of_le (held : QueryObj) {data : Bytes} (h : data.length ≤ querySizeMax) :
    held.importQuery data = held.qRead data := by
  have hput : (ByteBuffer.new querySizeMax).put data = some ⟨querySizeMax, data, h⟩ := dif_pos h
  rw [importQuery, hput]

theorem importQuery_of_lt (held : QueryObj) {data : Bytes} (h : querySizeMax < data.length) :
    held.importQuery data = (held, some .error) := by
  have hput : (ByteBuffer.new querySizeMax).put data = none := dif_neg (Nat.not_le.mpr h)
  rw [importQuery, hput]

section RoundTrip

theorem readInt64_append (v : Int64) (r : Bytes) :
    readInt64 (beBytes 8 v.toUInt64.toNat ++ r) = some (v, r) := by
  rw [readInt64, readUInt64_append]
  rfl

theorem ofUnixMilli_toUnixMilli {t : Int} (h : -2 ^ 63 ≤ t / 1000000 ∧ t / 1000000 < 2 ^ 63) :
    ofUnixMilli (toUnixMilli t) = t / 1000000 * 1000000 := by
  rw [ofUnixMilli, toUnixMilli, Int64.toInt_ofInt_of_le h.1 h.2]

theorem readWord_of_some {β : Type} {read : Bytes → Option (β × Bytes)} {r : Bytes} {p : β × Bytes}
    (h : read r = some p) : readWord read r = .ok p := by
  rw [readWord, h]

theorem encoding_eq (q : QueryObj) : q.encoding = (stringField q.id).flatten ++
    (beBytes 4 q.factoryId.toNat ++ (beBytes 4 q.classId.toNat ++ ((stringField q.nodeId).flatten ++
    ((stringField q.tag).flatten ++ ((stringField q.topic).flatten ++
    (beBytes 8 (toUnixMilli q.startTime).toUInt64.toNat ++
    (beBytes 8 (toUnixMilli q.endTime).toUInt64.toNat ++ (beBytes 4 q.limit.toUInt32.toNat ++
    (beBytes 4 q.offset.toUInt32.toNat ++ []))))))))) := by
  simp [encoding, fields]

theorem length_encoding (q : QueryObj) : q.encoding.length =
    48 + q.id.length + q.nodeId.length + q.tag.length + q.topic.length := by
  simp [encoding_eq, stringField]
  omega

theorem qRead_encoding (held q : QueryObj) (hq : q.encoding.length ≤ querySizeMax)
    (hs : -2 ^ 63 ≤ q.startTime / 1000000 ∧ q.startTime / 1000000 < 2 ^ 63)
    (he : -2 ^ 63 ≤ q.endTime / 1000000 ∧ q.endTime / 1000000 < 2 ^ 63) :
    held.qRead q.encoding = (q.inMillis, none) := by
  have hmax : querySizeMax = 2000 := rfl
  have hlen := q.length_encoding
  have hstr {s : Bytes} (h : s.length ≤ 2000) (r : Bytes) :
      readString ((stringField s).flatten ++ r) = .ok (s, r) :=
    readString_ok_iff.mpr ⟨by omega, rfl⟩
  rw [encoding_eq, qRead,
    readFields_into (hstr (by omega) _),
    readFields_into (readWord_of_some (readUInt32_append _ _)),
    readFields_into (readWord_of_some (readUInt32_append _ _)),
    readFields_into (hstr (by omega) _),
    readFields_into (hstr (by omega) _),
    readFields_into (hstr (by omega) _),
    readFields_into (readWord_of_some (readInt64_append _ _)),
    readFields_into (readWord_of_some (readInt64_append _ _)),
    readFields_into (readWord_of_some (readInt32_append _ _)),
    readFields_into (readWord_of_some (readInt32_append _ _))]
  simp only [readFields, ofUnixMilli_toUnixMilli hs, ofUnixMilli_toUnixMilli he, inMillis]

/-- A query that fits is exported and imported again, into whatever the factory held. -/
theorem import_export (held q : QueryObj) (hq : q.encoding.length ≤ querySizeMax)
    (hs : -2 ^ 63 ≤ q.startTime / 1000000 ∧ q.startTime / 1000000 < 2 ^ 63)
    (he : -2 ^ 63 ≤ q.endTime / 1000000 ∧ q.endTime / 1000000 < 2 ^ 63) :
    ∃ data, q.exportQuery = .ok data ∧ held.importQuery data = (q.inMillis, none) := by
  rcases q.exportQuery_cases with ⟨-, hx⟩ | ⟨hlt, -⟩
  · refine ⟨q.encoding, hx, ?_⟩
    rw [importQuery_of_le held hq, qRead_encoding held q hq hs he]
  · omega

theorem import_export_negative_limit :
    let q : QueryObj := ⟨[1, 2], 3, 4, [], [5], [6, 7, 8], -1, 2, 1700000000123456789, -1⟩
    ∃ data, q.exportQuery = .ok data ∧ importQuery ⟨[9], 9, 9, [9], [9], [9], 9, 9, 9, 9⟩ data =
      ({ q with startTime := 1700000000123000000, endTime := -1000000 }, none) :=
  import_export ⟨[9], 9, 9, [9], [9], [9], 9, 9, 9, 9⟩
    ⟨[1, 2], 3, 4, [], [5], [6, 7, 8], -1, 2, 1700000000123456789, -1⟩ (by decide) (by decide) (by decide)

end RoundTrip

section Oversize

/-- An oversize query is refused, and no query is exported without some of its fields. -/
def Refused (q : QueryObj) : Prop :=
  (querySizeMax < q.encoding.length → ∃ e, q.exportQuery = .error e) ∧
    ∀ data, q.exportQuery = .ok data → data = q.encoding

/-- No oversize query is refused. -/
theorem refused_iff (q : QueryObj) : q.Refused ↔ q.encoding.length ≤ querySizeMax := by
  rcases q.exportQuery_cases with ⟨hle, hx⟩ | ⟨hlt, n, hn, hx⟩
  · refine iff_of_true ⟨fun hlt => absurd hlt (Nat.not_lt.mpr hle), fun data hdata => ?_⟩ hle
    exact Except.ok.inj (hdata.symm.trans hx)
  · refine iff_of_false (fun h => ?_) (Nat.not_le.mpr hlt)
    obtain ⟨e, he⟩ := h.1 hlt
    rw [hx] at he
    cases he

/-- An id that leaves room for its size only: what is sent has four bytes. -/
theorem oversize_id_truncated :
    exportQuery ⟨List.replicate 2000 65, 1, 2, [], [], [], 10, 0, 0, 0⟩ = .ok [0, 0, 7, 208] ∧
      querySizeMax < (encoding ⟨List.replicate 2000 65, 1, 2, [], [], [], 10, 0, 0, 0⟩).length := by
  decide +kernel

end Oversize

section Crash

def layout : List FieldKind :=
  [.string, .word 4, .word 4, .string, .string, .string, .word 8, .word 8, .word 4, .word 4]

theorem qRead_crash_iff (held : QueryObj) (r : Bytes) :
    (held.qRead r).2 = some .crash ↔ FieldKind.NegativeSize layout r := by
  have hu32 : ∀ r, (readUInt32 r).map Prod.snd = (getBytes 4 r).map Prod.snd := by
    simp [readUInt32, Function.comp_def]
  have hi32 : ∀ r, (readInt32 r).map Prod.snd = (getBytes 4 r).map Prod.snd := by
    simp [readInt32, readUInt32, Function.comp_def]
  have hi64 : ∀ r, (readInt64 r).map Prod.snd = (getBytes 8 r).map Prod.snd := by
    simp [readInt64, readUInt64, Function.comp_def]
  refine readFields_crash_iff ?_ held r
  exact .cons (reads_string _) <| .cons (reads_word hu32 _) <| .cons (reads_word hu32 _) <|
    .cons (reads_string _) <| .cons (reads_string _) <| .cons (reads_string _) <|
    .cons (reads_word hi64 _) <| .cons (reads_word hi64 _) <| .cons (reads_word hi32 _) <|
    .cons (reads_word hi32 _) .nil

/-- An import, and so the handler of a registered id, panics exactly on what fits the buffer
and has a negative size in the place of the size of a string. -/
theorem import_crash_iff (registry : Bytes → Option QueryObj) (id criteria : Bytes) :
    (∀ held : QueryObj, (held.importQuery criteria).2 = some .crash ↔
      criteria.length ≤ querySizeMax ∧ FieldKind.NegativeSize layout criteria) ∧
    (handle registry id criteria = .error .crash ↔ (registry id).isSome ∧
      criteria.length ≤ querySizeMax ∧ FieldKind.NegativeSize layout criteria) := by
  have himport (held : QueryObj) : (held.importQuery criteria).2 = some .crash ↔
      criteria.length ≤ querySizeMax ∧ FieldKind.NegativeSize layout criteria := by
    by_cases hle : criteria.length ≤ querySizeMax
    · rw [importQuery_of_le held hle, qRead_crash_iff]
      simp [hle]
    · rw [importQuery_of_lt held (Nat.not_le.mp hle)]
      simp [hle]
  refine ⟨himport, ?_⟩
  cases hreg : registry id with
  | none => simp [handle, hreg]
  | some held =>
    simp only [handle, hreg, ← himport held, Option.isSome_some, true_and]
    generalize held.importQuery criteria = res
    obtain ⟨q, _ | e⟩ := res <;> simp

theorem negative_size_crashes :
    handle (fun _ => some default) [] [255, 255, 255, 255] = .error .crash := by decide +kernel

end Crash

end QueryObj

end Tarantula
