import Tarantula.LocalData

/-! The version of a record that a store holds, and what each operation makes of it. -/

namespace Tarantula

/-- A tombstone has no value. -/
structure Version where
  revision : UInt64
  state : UInt32
  updatable : Bool
  value : Option Bytes
  deriving DecidableEq, Repr

def Address.version (a : Address) (db : Db) (h : Header) : Version :=
  ⟨h.revision, h.state, h.updatable,
    if h.state = dataStateDeleted then none else db[a.data h.revision]?⟩

/-- The store holds this version of the record, or none. -/
def Holds (a : Address) (db : Db) : Option Version → Prop
  | none => db[a.index]? = none
  | some v => ∃ h, db[a.index]? = some (rowBytes h) ∧ v = a.version db h

theorem decode_rowBytes (h : Header) : KeyIndex.decode (rowBytes h) = some (Header.withRow default h) := by
  simp [KeyIndex.decode, KeyIndex.val_rowBytes]

theorem rowBytes_inj {h h' : Header} (he : rowBytes h = rowBytes h') :
    Header.withRow default h = Header.withRow default h' := by
  have hd := decode_rowBytes h
  rw [he, decode_rowBytes] at hd
  exact (Option.some.inj hd).symm

theorem Holds.unique {a : Address} {db : Db} {v v' : Option Version} (h : Holds a db v)
    (h' : Holds a db v') : v = v' := by
  cases v with
  | none =>
    cases v' with
    | none => rfl
    | some v' =>
      obtain ⟨d, hd, -⟩ := h'
      rw [show db[a.index]? = none from h] at hd
      cases hd
  | some v =>
    obtain ⟨d, hd, rfl⟩ := h
    cases v' with
    | none =>
      rw [show db[a.index]? = none from h'] at hd
      cases hd
    | some v' =>
      obtain ⟨d', hd', rfl⟩ := h'
      rw [hd] at hd'
      have hr := rowBytes_inj (Option.some.inj hd')
      simp only [Header.withRow, Header.mk.injEq] at hr
      obtain ⟨hrev, -, -, -, -, hu, hs⟩ := hr
      simp only [Address.version, hrev, hu, hs]

theorem beBytes_uint32_inj {x y : UInt32} (h : beBytes 4 x.toNat = beBytes 4 y.toNat) : x = y :=
  UInt32.toNat_inj.mp (beBytes_inj x.toNat_lt y.toNat_lt h)

theorem beBytes_uint64_inj {x y : UInt64} (h : beBytes 8 x.toNat = beBytes 8 y.toNat) : x = y :=
  UInt64.toNat_inj.mp (beBytes_inj x.toNat_lt y.toNat_lt h)

namespace Address

theorem index_inj {a a' : Address} (h : a.index = a'.index) : a = a' := by
  obtain ⟨p, f, c, k⟩ := a
  obtain ⟨p', f', c', k'⟩ := a'
  simp only [index, indexBytes, List.append_cancel_left_eq] at h
  obtain ⟨hp, h⟩ := List.append_inj h (by simp)
  obtain ⟨hf, h⟩ := List.append_inj h (by simp)
  obtain ⟨hc, h⟩ := List.append_inj h (by simp)
  obtain ⟨-, hk⟩ := List.append_inj h (by simp)
  rw [beBytes_uint32_inj hp, beBytes_uint32_inj hf, beBytes_uint32_inj hc, hk]

theorem data_inj {a a' : Address} {rev rev' : UInt64} (h : a.data rev = a'.data rev') :
    a.factoryId = a'.factoryId ∧ a.classId = a'.classId ∧ a.key = a'.key ∧ rev = rev' := by
  simp only [data, dataBytes] at h
  obtain ⟨hf, h⟩ := List.append_inj h (by simp)
  obtain ⟨hc, h⟩ := List.append_inj h (by simp)
  obtain ⟨-, h⟩ := List.append_inj h (by simp)
  obtain ⟨hk, hr⟩ := List.append_inj' h (by simp)
  exact ⟨beBytes_uint32_inj hf, beBytes_uint32_inj hc, hk, beBytes_uint64_inj hr⟩

theorem index_ninth (a : Address) : a.index[8]? = some 75 := by
  simp [index, indexBytes, beBytes, indexPrefix]

theorem data_ninth {a : Address} (hf : a.Fits) (rev : UInt64) : (a.data rev)[8]? = some 0 := by
  have hz : a.key.length % 4294967296 / 256 / 256 / 256 = 0 := by
    have h₀ : 30 + a.key.length ≤ 500 := hf
    omega
  simp [data, dataBytes, beBytes, hz]

theorem index_ne_data {a : Address} (hf : a.Fits) (a' : Address) (rev : UInt64) :
    a'.index ≠ a.data rev := by
  intro he
  have h := a'.index_ninth
  rw [he, data_ninth hf] at h
  cases h

theorem fits_of_row {a : Address} {db : Db} {d : Header} (h : a.row db = some d) : a.Fits := by
  by_contra hf
  simp [row, hf] at h

end Address

/-- What a record of the given state shows of a value. -/
def shown (state : UInt32) (value : Bytes) : Option Bytes :=
  if state = dataStateDeleted then none else some value

section Rows

variable {a : Address} (db : Db) (h : Header)

theorem holds_insert (hf : a.Fits) (value : Bytes) :
    Holds a ((db.insert a.index (rowBytes h)).insert (a.data h.revision) value)
      (some ⟨h.revision, h.state, h.updatable, shown h.state value⟩) := by
  refine ⟨h, ?_, ?_⟩
  · rw [ExtMap.getElem?_insert, if_neg (a.index_ne_data hf a _).symm, ExtMap.getElem?_insert,
      if_pos rfl]
  · rw [Address.version, ExtMap.getElem?_insert, if_pos rfl]
    rfl

theorem holds_erase (hf : a.Fits) (hs : h.state = dataStateDeleted) :
    Holds a ((db.insert a.index (rowBytes h)).erase (a.data h.revision))
      (some ⟨h.revision, h.state, h.updatable, none⟩) := by
  refine ⟨h, ?_, ?_⟩
  · rw [ExtMap.getElem?_erase, if_neg (a.index_ne_data hf a _).symm, ExtMap.getElem?_insert,
      if_pos rfl]
  · rw [Address.version, if_pos hs]

variable {db}

theorem Holds.row_none (h : Holds a db none) : a.row db = none := by
  have hn : db[a.index]? = none := h
  unfold Address.row
  split
  · rw [hn]
    rfl
  · rfl

theorem Holds.row (hf : a.Fits) {v : Version} (h : Holds a db (some v)) :
    ∃ d, a.row db = some d ∧ d.revision = v.revision ∧ d.state = v.state ∧
      d.updatable = v.updatable := by
  obtain ⟨d, hd, rfl⟩ := h
  refine ⟨Header.withRow default d, ?_, rfl, rfl, rfl⟩
  rw [Address.row, if_pos hf, hd, Option.bind_some, decode_rowBytes]

def Address.held (a : Address) (db : Db) : Option Version := (a.row db).map (a.version db)

theorem Holds.held (hf : a.Fits) {v : Option Version} (h : Holds a db v) : a.held db = v := by
  cases v with
  | none =>
    rw [Address.held, h.row_none]
    rfl
  | some v =>
    obtain ⟨d, hd, rfl⟩ := h
    rw [Address.held, Address.row, if_pos hf, hd, Option.bind_some, decode_rowBytes]
    rfl

theorem Holds.row_map (hf : a.Fits) {v : Option Version} (h : Holds a db v) :
    (a.row db).map (fun d => (d.revision, d.state, d.updatable)) =
      v.map fun u => (u.revision, u.state, u.updatable) := by
  cases v with
  | none =>
    rw [h.row_none]
    rfl
  | some v =>
    obtain ⟨d, hd, hrev, hst, hu⟩ := h.row hf
    rw [hd, Option.map_some, Option.map_some, hrev, hst, hu]

end Rows

namespace Version

def updated (value : Bytes) (rev : UInt64) (v : Version) : Version :=
  if v.updatable = true ∧ v.revision = rev then
    ⟨v.revision + 1, v.state, v.updatable, shown v.state value⟩
  else v

def deleted (v : Version) : Version :=
  if v.updatable = true ∧ v.state ≠ dataStateDeleted then
    ⟨v.revision + 1, dataStateDeleted, v.updatable, none⟩
  else v

def wasReset (value : Bytes) (v : Version) : Version :=
  if v.updatable = true then ⟨1, v.state, v.updatable, shown v.state value⟩ else v

/-- The version after a create with the given state and flag: only a tombstone is
replaced. -/
def created (value : Bytes) (state : UInt32) (updatable : Bool) : Option Version → Version
  | none => ⟨1, state, updatable, shown state value⟩
  | some v => if v.state = dataStateDeleted then ⟨1, state, updatable, shown state value⟩ else v

end Version

namespace LocalData

variable {db : Db} {sd : SetData} (now : UInt64)

/-- The version after an edit, given what the edit makes of a stored header. -/
theorem edit_holds {verb : Verb} {change : Header → Except Fail Header} {store : Db → Bytes → Db}
    (next : Version → Version) (hf : sd.address.Fits)
    (hc : KeepsIds change)
    (hnext : ∀ (h : Header) (v : Version), h.revision = v.revision → h.state = v.state →
      h.updatable = v.updatable →
      if h.updatable then
        match change h with
        | .error _ => next v = v
        | .ok h' => ∀ db : Db, Holds sd.address
            (store (db.insert sd.address.index (rowBytes h')) (sd.address.data h'.revision))
            (some (next v))
      else next v = v)
    {v : Option Version} (hv : Holds sd.address db v) :
    Holds sd.address (edit verb change store db sd).db (v.map next) := by
  cases v with
  | none =>
    rw [(edit_of_no_row hv.row_none).2.1]
    exact hv
  | some v =>
    obtain ⟨d, hd, hrev, hst, hu⟩ := hv.row hf
    have hn := hnext (sd.data.header.withRow d) v hrev hst hu
    have hup : (sd.data.header.withRow d).updatable = d.updatable := rfl
    rw [edit_of_row hd hc, Option.map_some]
    rw [hup] at hn
    cases hd' : d.updatable with
    | false =>
      rw [hd', if_neg (by simp)] at hn
      rw [hn]
      exact hv
    | true =>
      rw [hd', if_pos rfl] at hn
      simp only [Bool.not_true, Bool.false_eq_true, if_false]
      cases hch : change (sd.data.header.withRow d) with
      | error e =>
        simp only [hch] at hn
        rw [hn]
        exact hv
      | ok h' =>
        simp only [hch] at hn
        exact hn db

theorem update_holds (hf : sd.address.Fits) {v : Option Version} (hv : Holds sd.address db v) :
    Holds sd.address (update db now sd).db
      (v.map (Version.updated sd.data.value sd.data.header.revision)) := by
  refine edit_holds _ hf updated_ids (fun h v hrev hst hu => ?_) hv
  rw [Version.updated, ← hrev, ← hst, ← hu]
  cases hup : h.updatable with
  | false => simp
  | true =>
    by_cases hr : h.revision = sd.data.header.revision
    · simp only [LocalData.updated, hr, ne_eq, not_true, if_false, if_true, and_self]
      intro db
      have hi := holds_insert db { h with
        revision := sd.data.header.revision + 1, timestamp := now,
        size := UInt32.ofNat sd.data.value.length } hf sd.data.value
      simpa only [hup] using hi
    · simp [LocalData.updated, hr]

theorem delete_holds (hf : sd.address.Fits) {v : Option Version} (hv : Holds sd.address db v) :
    Holds sd.address (delete db sd).db (v.map Version.deleted) := by
  refine edit_holds _ hf deleted_ids (fun h v hrev hst hu => ?_) hv
  rw [Version.deleted, ← hrev, ← hst, ← hu]
  cases hup : h.updatable with
  | false => simp
  | true =>
    by_cases hs : h.state = dataStateDeleted
    · simp [LocalData.deleted, hs]
    · simp only [LocalData.deleted, hs, ne_eq, not_false_iff, if_false, if_true, and_self]
      intro db
      have he := holds_erase db { h with state := dataStateDeleted, revision := h.revision + 1 }
        hf rfl
      simpa only [hup] using he

theorem reset_holds (hf : sd.address.Fits) {v : Option Version} (hv : Holds sd.address db v) :
    Holds sd.address (reset db now sd).db (v.map (Version.wasReset sd.data.value)) := by
  refine edit_holds _ hf wasReset_ids (fun h v hrev hst hu => ?_) hv
  rw [Version.wasReset, ← hst, ← hu]
  cases hup : h.updatable with
  | false => simp
  | true =>
    simp only [LocalData.wasReset, if_true]
    intro db
    have hi := holds_insert db { h with
      revision := 1, timestamp := now, size := UInt32.ofNat sd.data.value.length }
      hf sd.data.value
    simpa only [hup] using hi

theorem create_of_none (hf : sd.address.Fits) (hv : Holds sd.address db none) :
    create db now sd =
      ⟨(db.insert sd.address.index (rowBytes (fresh now sd))).insert (sd.address.data 1)
        sd.data.value, fresh now sd, none⟩ := by
  have hn : db[sd.address.index]? = none := hv
  simp only [create, pair_fresh now hf, dataKey_fresh now hf, hn]

theorem create_of_row (hf : sd.address.Fits) {d : Header}
    (hd : db[sd.address.index]? = some (rowBytes d)) :
    create db now sd =
      if d.state ≠ dataStateDeleted then ⟨db, (fresh now sd).withRow d, some .existed⟩
      else ⟨(db.insert sd.address.index (rowBytes (fresh now sd))).insert (sd.address.data 1)
        sd.data.value, (fresh now sd).withRow d, none⟩ := by
  have hst : ((fresh now sd).withRow d).state = d.state := rfl
  simp only [create, pair_fresh now hf, dataKey_fresh now hf, hd, KeyIndex.val_rowBytes, hst]

theorem create_holds (hf : sd.address.Fits) {v : Option Version} (hv : Holds sd.address db v) :
    Holds sd.address (create db now sd).db (some (Version.created sd.data.value
      sd.data.header.state sd.data.header.updatable v)) := by
  have hi := holds_insert db (fresh now sd) hf sd.data.value
  cases v with
  | none =>
    rw [create_of_none now hf hv]
    exact hi
  | some v =>
    obtain ⟨d, hd, rfl⟩ := hv
    have hst : (sd.address.version db d).state = d.state := rfl
    rw [create_of_row now hf hd, Version.created, hst]
    by_cases hs : d.state = dataStateDeleted
    · rw [if_neg (by simp [hs]), if_pos hs]
      exact hi
    · rw [if_pos hs, if_neg hs]
      exact ⟨d, hd, rfl⟩

theorem create_ok_iff {v : Option Version} (hv : Holds sd.address db v) :
    (create db now sd).err = none ↔ sd.address.Fits ∧ ∀ u ∈ v, u.state = dataStateDeleted := by
  by_cases hf : sd.address.Fits
  · cases v with
    | none => simp [create_of_none now hf hv, hf]
    | some v =>
      obtain ⟨d, hd, rfl⟩ := hv
      have hst : (sd.address.version db d).state = d.state := rfl
      rw [create_of_row now hf hd]
      by_cases hs : d.state = dataStateDeleted <;> simp [hs, hf, hst]
  · simp [create, pair_fresh_none now hf, hf]

theorem create_header_none (hf : sd.address.Fits) (hv : Holds sd.address db none) :
    (create db now sd).header.state = sd.data.header.state ∧
      (create db now sd).header.updatable = sd.data.header.updatable := by
  rw [create_of_none now hf hv]
  exact ⟨rfl, rfl⟩

theorem create_header_some (hf : sd.address.Fits) {u : Version} (hv : Holds sd.address db (some u)) :
    (create db now sd).header.state = u.state ∧ (create db now sd).header.updatable = u.updatable := by
  obtain ⟨d, hd, rfl⟩ := hv
  rw [create_of_row now hf hd]
  split <;> exact ⟨rfl, rfl⟩

theorem edit_ok_version {verb : Verb} {change : Header → Except Fail Header} {store : Db → Bytes → Db}
    (hc : KeepsIds change) (he : (edit verb change store db sd).err = none)
    {v : Option Version} (hv : Holds sd.address db v) :
    ∃ u h h', v = some u ∧ u.updatable = true ∧ h.revision = u.revision ∧ h.state = u.state ∧
      change h = .ok h' := by
  obtain ⟨d, hd, hu, hch⟩ := edit_ok hc he
  cases v with
  | none =>
    rw [hv.row_none] at hd
    cases hd
  | some u =>
    obtain ⟨d', hd', hrev, hst, hup⟩ := hv.row (Address.fits_of_row hd)
    obtain rfl : d' = d := Option.some.inj (hd'.symm.trans hd)
    exact ⟨u, sd.data.header.withRow d', _, rfl, hup ▸ hu, hrev, hst, hch⟩

theorem update_ok (he : (update db now sd).err = none) {v : Option Version}
    (hv : Holds sd.address db v) :
    ∃ u, v = some u ∧ u.updatable = true ∧ u.revision = sd.data.header.revision := by
  obtain ⟨u, h, h', rfl, hu, hrev, -, hc⟩ := edit_ok_version updated_ids he hv
  exact ⟨u, rfl, hu, hrev.symm.trans (updated_ok hc).1⟩

theorem update_header (hf : sd.address.Fits) {u : Version} (hv : Holds sd.address db (some u))
    (hu : u.updatable = true) (hr : u.revision = sd.data.header.revision) :
    (update db now sd).header.revision = u.revision + 1 := by
  obtain ⟨d, hd, hrev, -, hup⟩ := hv.row hf
  have hw : (sd.data.header.withRow d).revision = sd.data.header.revision := hrev.trans hr
  rw [update, edit_of_row hd updated_ids, hup, hu]
  simp [updated, hw, hr]

end LocalData

end Tarantula
