import Tarantula.Writes

/-! The handoff of a range: `pull` reads the records of the range out of the store of one
node, `set` writes them into the store of another one. -/

namespace Tarantula

def pullBatchSize : Nat := 100

def pullBufferSize : Nat := 300

/-- The test of `pull`, with `lo` and `hi` for its `from` and `to`. -/
def inRange (lo hi p : UInt32) : Bool := if lo < hi then lo ≤ p && p < hi else lo ≤ p || p < hi

namespace LocalData

/-- The message for an imported record. The header is copied without the size, and the key
is cut out of the data key. -/
def sent (ki : KeyIndex) (value : Bytes) : Data :=
  let key := ki.lookupDataKey
  ⟨(key.take (key.length - 8)).drop 12, value, { ki.header with size := 0 }⟩

/-- What `pull` sends for an index row, if anything. `none` is a panic of the import. -/
def pullRow (db : Db) (lo hi : UInt32) (row : Bytes × Bytes) : Option (Option Data) :=
  match KeyIndex.importRow ⟨0, [], default⟩ row.1 row.2 pullBufferSize with
  | .error .crash => none
  | .error .error => some none
  | .ok ki =>
    -- tombstones are sent whatever the range
    if ki.header.state = dataStateDeleted then some (some (sent ki []))
    else if inRange lo hi ki.ringPrefix then
      match db[ki.lookupDataKey]? with
      | none => some none
      | some value => some (some (sent ki value))
    else some none

/-- The loop of `pull`: a full batch is sent at once, the rest at the end. -/
def pullLoop (db : Db) (lo hi : UInt32) :
    List (Bytes × Bytes) → List (List Data) → List Data → Option (List (List Data))
  | [], batches, data => some (if 0 < data.length then batches ++ [data] else batches)
  | row :: rows, batches, data =>
    match pullRow db lo hi row with
    | none => none
    | some none => pullLoop db lo hi rows batches data
    | some (some d) =>
      let data := data ++ [d]
      if data.length = pullBatchSize then pullLoop db lo hi rows (batches ++ [data]) []
      else pullLoop db lo hi rows batches data

def indexRows (db : Db) : List (Bytes × Bytes) :=
  db.toList.filter fun row => (KeyIndex.lookupPrefix indexPrefix).isPrefixOf row.1

def pull (db : Db) (lo hi : UInt32) : Option (List (List Data)) :=
  pullLoop db lo hi (indexRows db) [] []

/-- `set` for one record of a response. The `SetData` it builds has the prefix 0. -/
def setRow (db : Db) (d : Data) : Db :=
  let sd : SetData := ⟨0, d⟩
  match (sd.indexKey d.header).pair with
  | none => db
  | some (k, v) =>
    match dataKey d.key d.header with
    | .error _ => db
    | .ok dkey =>
      match db[k]? with
      | none =>
        if d.header.state ≠ dataStateDeleted then (db.insert k v).insert dkey d.value
        else db.insert k v
      | some ev =>
        -- the key is one that `pair` has made, so importing it does not panic
        match KeyIndex.importRow ⟨0, [], default⟩ k ev compositKeyMax with
        | .error _ => db
        | .ok eki =>
          if eki.header.revision < d.header.revision then
            if d.header.state = dataStateDeleted then (db.insert k v).erase dkey
            else (db.insert k v).insert dkey d.value
          else db

def set (db : Db) (batch : List Data) : Db := batch.foldl setRow db

end LocalData

namespace KeyIndex

theorem put_new (size : Nat) (x : Bytes) :
    (x.length ≤ size ∧ ∃ b, (ByteBuffer.new size).put x = some b ∧ b.bytes = x) ∨
      (size < x.length ∧ (ByteBuffer.new size).put x = none) := by
  have hm := ByteBuffer.map_bytes_new_put size x
  by_cases hx : x.length ≤ size
  · rw [if_pos hx] at hm
    exact .inl ⟨hx, Option.map_eq_some_iff.mp hm⟩
  · rw [if_neg hx] at hm
    exact .inr ⟨by omega, Option.map_eq_none_iff.mp hm⟩

theorem readKey_size (k : KeyIndex) (p f c : UInt32) (key : Bytes) :
    k.readKey (indexBytes p f c key) = (readSome (Int32.ofNat key.length) key).map fun r =>
      ⟨p, r.1, { k.header with factoryId := f, classId := c }⟩ := by
  have hs : readString (indexBytes p f c key) = .ok (indexPrefix, beBytes 4 p.toNat ++
      (beBytes 4 f.toNat ++ (beBytes 4 c.toNat ++
        (beBytes 4 (Int32.ofNat key.length).toUInt32.toNat ++ key)))) := by
    have hten : (Int32.ofNat indexPrefix.length).toUInt32.toNat = 10 := by decide
    have h := readString_append (s := indexPrefix) (by decide) (beBytes 4 p.toNat ++
      (beBytes 4 f.toNat ++ (beBytes 4 c.toNat ++
        (beBytes 4 (Int32.ofNat key.length).toUInt32.toNat ++ key))))
    rwa [hten] at h
  simp only [readKey, hs, bind, Except.bind, readUInt32_append, readInt32_append, ofOption]
  cases readSome (Int32.ofNat key.length) key <;> rfl

theorem readKey_indexBytes (k : KeyIndex) (p f c : UInt32) {key : Bytes} (hk : key.length < 2 ^ 31) :
    k.readKey (indexBytes p f c key) =
      .ok ⟨p, key, { k.header with factoryId := f, classId := c }⟩ := by
  rw [readKey_size, readSome_length hk]
  rfl

/-- An index row is imported if its key and its value fit the buffer and the value can be read. -/
theorem importRow_read {a : Address} (hf : a.Fits) (ev : Bytes) (size : Nat) :
    importRow ⟨0, [], default⟩ a.index ev size =
      let h : Header := { (default : Header) with factoryId := a.factoryId, classId := a.classId }
      if 30 + a.key.length ≤ size ∧ ev.length ≤ size ∧ (read h ev).2 = true then
        .ok ⟨a.ringPrefix, a.key, (read h ev).1⟩
      else .error .error := by
  have hlen : a.index.length = 30 + a.key.length := length_indexBytes ..
  have hk : a.key.length < 2 ^ 31 := by
    have h₀ : 30 + a.key.length ≤ 500 := hf
    omega
  rcases put_new size a.index with ⟨hle, b, hb, hbytes⟩ | ⟨hlt, hn⟩
  · have hr : readKey ⟨0, [], default⟩ a.index = _ := readKey_indexBytes _ _ _ _ hk
    rcases put_new size ev with ⟨hle', b', hb', hbytes'⟩ | ⟨hlt, hn⟩
    · simp only [importRow, hb, hbytes, hr, hb', hbytes', ofOption, bind, Except.bind, ← hlen, hle, hle',
        true_and]
      rfl
    · rw [if_neg (by omega)]
      simp only [importRow, hb, hbytes, hr, hn, ofOption, bind, Except.bind]
  · rw [if_neg (by omega)]
    simp only [importRow, hn, ofOption, bind, Except.bind]

theorem importRow_eq {a : Address} (hf : a.Fits) (d : Header) {size : Nat} (hs : 25 ≤ size) :
    importRow ⟨0, [], default⟩ a.index (rowBytes d) size =
      if 30 + a.key.length ≤ size then
        .ok ⟨a.ringPrefix, a.key, { d with factoryId := a.factoryId, classId := a.classId }⟩
      else .error .error := by
  simp only [importRow_read hf, read_rowBytes, length_rowBytes, hs, and_self, and_true]
  rfl

theorem importRow_decode {a : Address} (hf : a.Fits) (ev : Bytes) :
    importRow ⟨0, [], default⟩ a.index ev compositKeyMax =
      match decode ev with
      | none => .error .error
      | some h => .ok ⟨a.ringPrefix, a.key, { h with factoryId := a.factoryId, classId := a.classId }⟩ := by
  have hlen : 30 + a.key.length ≤ compositKeyMax := hf
  rw [importRow_read hf]
  rcases put_new compositKeyMax ev with ⟨hle, b, hb, hbytes⟩ | ⟨hlt, hn⟩
  · have hval : ∀ h, val h ev = read h ev := fun h => by simp only [val, hb, hbytes]
    rcases val_cases ev with ⟨d, hd, hread⟩ | ⟨hd, hread⟩
    · simp only [← hval, hread, hd, hlen, hle, and_self, if_true]
      rfl
    · simp [← hval, hread, hd]
  · have hval : ∀ h, val h ev = (h, false) := fun h => by simp only [val, hn]
    have hd : decode ev = none := by simp [decode, hval]
    rw [if_neg (by omega), hd]

end KeyIndex

namespace LocalData

section Pull

variable {db : Db} {lo hi : UInt32}

/-- The batches of `pull` are the messages of its rows in order. -/
theorem pullLoop_flatten {rows : List (Bytes × Bytes)} {f : Bytes × Bytes → Option Data}
    (hf : ∀ row ∈ rows, pullRow db lo hi row = some (f row)) (batches : List (List Data))
    (data : List Data) : ∃ all, pullLoop db lo hi rows batches data = some all ∧
      all.flatten = batches.flatten ++ data ++ rows.filterMap f := by
  induction rows generalizing batches data with
  | nil =>
    refine ⟨_, rfl, ?_⟩
    cases data <;> simp
  | cons row rows ih =>
    have hrow := hf row (List.mem_cons_self ..)
    have hrows := ih fun row h => hf row (List.mem_cons_of_mem _ h)
    cases hr : f row with
    | none =>
      obtain ⟨all, hall, he⟩ := hrows batches data
      exact ⟨all, by simp only [pullLoop, hrow, hr, hall], by simp [he, hr]⟩
    | some d =>
      by_cases hd : (data ++ [d]).length = pullBatchSize
      · obtain ⟨all, hall, he⟩ := hrows (batches ++ [data ++ [d]]) []
        exact ⟨all, by simp only [pullLoop, hrow, hr, hd, if_true, hall], by simp [he, hr]⟩
      · obtain ⟨all, hall, he⟩ := hrows batches (data ++ [d])
        exact ⟨all, by simp only [pullLoop, hrow, hr, hd, if_false, hall], by simp [he, hr]⟩

theorem foldl_set (batches : List (List Data)) (db : Db) :
    batches.foldl set db = batches.flatten.foldl setRow db := by
  rw [List.foldl_flatten]
  rfl

theorem sent_eq {a : Address} (hf : a.Fits) (d : Header) (value : Bytes) :
    sent ⟨a.ringPrefix, a.key, { d with factoryId := a.factoryId, classId := a.classId }⟩ value =
      ⟨a.key, value, { d with factoryId := a.factoryId, classId := a.classId, size := 0 }⟩ := by
  have h₀ : 30 + a.key.length ≤ 500 := hf
  have hl : a.key.length + 20 ≤ compositKeyMax := by
    have : compositKeyMax = 500 := rfl
    omega
  have hcut : ((dataBytes a.factoryId a.classId a.key d.revision).take (12 + a.key.length)).drop 12 =
      a.key := by
    simp only [dataBytes, ← List.append_assoc]
    rw [List.take_left' (by simp; omega)]
    exact List.drop_left' (by simp)
  have hlen : (dataBytes a.factoryId a.classId a.key d.revision).length - 8 = 12 + a.key.length := by
    simp [dataBytes]
    omega
  simp only [sent]
  rw [KeyIndex.lookupDataKey_eq hl, hlen, hcut]

theorem pullRow_eq {a : Address} (hf : a.Fits) (d : Header) :
    pullRow db lo hi (a.index, rowBytes d) = some
      (if 30 + a.key.length ≤ pullBufferSize then
        let h := { d with factoryId := a.factoryId, classId := a.classId, size := 0 }
        if d.state = dataStateDeleted then some ⟨a.key, [], h⟩
        else if inRange lo hi a.ringPrefix then
          (db[a.data d.revision]?).map fun value => ⟨a.key, value, h⟩
        else none
      else none) := by
  have hl : a.key.length + 20 ≤ compositKeyMax := by
    have h₀ : 30 + a.key.length ≤ compositKeyMax := hf
    omega
  have himport := KeyIndex.importRow_eq hf d (show 25 ≤ pullBufferSize by decide)
  by_cases hfit : 30 + a.key.length ≤ pullBufferSize
  · rw [if_pos hfit] at himport ⊢
    simp only [pullRow, himport]
    split
    · rw [sent_eq hf]
    · rw [KeyIndex.lookupDataKey_eq hl]
      split
      · cases hv : db[a.data d.revision]? with
        | none =>
          have hv' : db[dataBytes a.factoryId a.classId a.key d.revision]? = none := hv
          simp only [hv', Option.map_none]
        | some value =>
          have hv' : db[dataBytes a.factoryId a.classId a.key d.revision]? = some value := hv
          simp only [hv', Option.map_some, sent_eq hf]
      · rfl
  · rw [if_neg hfit] at himport ⊢
    simp only [pullRow, himport]

end Pull

end LocalData

end Tarantula
