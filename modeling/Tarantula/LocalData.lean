import Tarantula.ExtMap
import Tarantula.KeyIndex

/-! The operations of a node on its own store. The header of the request is an object
the caller shares: every operation also returns it as it is left. -/

namespace Tarantula

abbrev Db := Std.ExtTreeMap Bytes Bytes

structure Data where
  key : Bytes
  value : Bytes
  header : Header
  deriving DecidableEq, Repr, Inhabited

structure Request where
  ringPrefix : UInt32
  data : Data
  deriving DecidableEq, Repr

inductive Verb
  | update | delete | reset
  deriving DecidableEq, Repr

/-- The errors, each with its text in the source and the values it prints. -/
inductive Fail
  | buffer -- the error of a byte buffer that is too small or too short
  | keySize (size : Nat) -- `Key size overflow %d`
  | existed -- `key already existed`
  | notExisted -- `key not existed %s`, with the error of the store
  | immutable (verb : Verb) -- `cannot update on immutable %v`, likewise for delete and reset
  | revision (stored given : UInt64) -- `revison not matched %d %d`
  | deletedBefore (state : UInt32) -- `already deleted on %d`
  | dataDeleted (state : UInt32) -- `data deleted %d`
  | notFound -- the error of the store for a missing key
  | noTcpConnect -- `no tcp connect`
  | connection -- the error of the connection pool
  | transport -- the error of a call whose request or reply is lost
  deriving DecidableEq, Repr

structure SetData where
  ringPrefix : UInt32
  data : Data
  deriving DecidableEq, Repr

/-- The store and the header of the request after an operation, and its error. -/
structure Done where
  db : Db
  header : Header
  err : Option Fail

/-- `DataKey` of a record at the revision in `h`. The writes fit once the size does. -/
def dataKey (key : Bytes) (h : Header) : Except Fail Bytes :=
  if compositKeyMax < key.length + 20 then .error (.keySize key.length)
  else .ok (KeyIndex.lookupDataKey ⟨0, key, h⟩)

def SetData.indexKey (sd : SetData) (h : Header) : KeyIndex := ⟨sd.ringPrefix, sd.data.key, h⟩

namespace LocalData

def fresh (now : UInt64) (sd : SetData) : Header :=
  { sd.data.header with
    revision := 1, timestamp := now, size := UInt32.ofNat sd.data.value.length }

def create (db : Db) (now : UInt64) (sd : SetData) : Done :=
  let h := fresh now sd
  match (sd.indexKey h).pair with
  | none => ⟨db, h, some .buffer⟩
  | some (k, v) =>
    match dataKey sd.data.key h with
    | .error e => ⟨db, h, some e⟩
    | .ok dk =>
      let stored := (db.insert k v).insert dk sd.data.value
      match db[k]? with
      | none => ⟨stored, h, none⟩
      | some ev =>
        match KeyIndex.val h ev with
        | (h, false) => ⟨db, h, some .existed⟩
        | (h, true) =>
          if h.state ≠ dataStateDeleted then ⟨db, h, some .existed⟩ else ⟨stored, h, none⟩

/-- The part that `update`, `delete` and `reset` share: the index row is read into the
header of the request, checked, changed and written back, and then the data row. -/
def edit (verb : Verb) (change : Header → Except Fail Header) (store : Db → Bytes → Db)
    (db : Db) (sd : SetData) : Done :=
  match (sd.indexKey sd.data.header).compositKey with
  | none => ⟨db, sd.data.header, some .buffer⟩
  | some k =>
    match db[k]? with
    | none => ⟨db, sd.data.header, some .notExisted⟩
    | some bytes =>
      match KeyIndex.val sd.data.header bytes with
      | (h, false) => ⟨db, h, some .buffer⟩
      | (h, true) =>
        if !h.updatable then ⟨db, h, some (.immutable verb)⟩
        else
          match change h with
          | .error e => ⟨db, h, some e⟩
          | .ok h =>
            match KeyIndex.value h with
            | none => ⟨db, h, some .buffer⟩
            | some v =>
              match dataKey sd.data.key h with
              | .error e => ⟨db, h, some e⟩
              | .ok dk => ⟨store (db.insert k v) dk, h, none⟩

/-- What each edit makes of the stored header: `update` compares the revisions, `delete`
refuses what is deleted. -/
def updated (rev now : UInt64) (size : UInt32) (h : Header) : Except Fail Header :=
  if h.revision ≠ rev then .error (.revision h.revision rev)
  else .ok { h with revision := h.revision + 1, timestamp := now, size := size }

def deleted (h : Header) : Except Fail Header :=
  if h.state = dataStateDeleted then .error (.deletedBefore h.state)
  else .ok { h with state := dataStateDeleted, revision := h.revision + 1 }

def wasReset (now : UInt64) (size : UInt32) (h : Header) : Except Fail Header :=
  .ok { h with revision := 1, timestamp := now, size := size }

def update (db : Db) (now : UInt64) (sd : SetData) : Done :=
  edit .update (updated sd.data.header.revision now (UInt32.ofNat sd.data.value.length))
    (fun db dk => db.insert dk sd.data.value) db sd

/-- The data row that is deleted is the one of the new revision. -/
def delete (db : Db) (sd : SetData) : Done :=
  edit .delete deleted (fun db dk => db.erase dk) db sd

def reset (db : Db) (now : UInt64) (sd : SetData) : Done :=
  edit .reset (wasReset now (UInt32.ofNat sd.data.value.length))
    (fun db dk => db.insert dk sd.data.value) db sd

/-- The header of the answer has no ids and no state. -/
def get (db : Db) (gd : Request) : Except Fail Data :=
  match KeyIndex.compositKey ⟨gd.ringPrefix, gd.data.key, gd.data.header⟩ with
  | none => .error .buffer
  | some k =>
    match db[k]? with
    | none => .error .notFound
    | some bytes =>
      match KeyIndex.val gd.data.header bytes with
      | (_, false) => .error .buffer
      | (h, true) =>
        if h.state = dataStateDeleted then .error (.dataDeleted h.state)
        else
          match dataKey gd.data.key h with
          | .error e => .error e
          | .ok dk =>
            match db[dk]? with
            | none => .error .notFound
            | some value =>
              .ok ⟨[], value, ⟨h.revision, 0, 0, h.timestamp, h.size, h.updatable, 0⟩⟩

end LocalData

/-- What names a record in a store. -/
structure Address where
  ringPrefix : UInt32
  factoryId : UInt32
  classId : UInt32
  key : Bytes
  deriving DecidableEq, Repr

namespace Address

def index (a : Address) : Bytes := indexBytes a.ringPrefix a.factoryId a.classId a.key

def data (a : Address) (revision : UInt64) : Bytes := dataBytes a.factoryId a.classId a.key revision

def Fits (a : Address) : Prop := 30 + a.key.length ≤ compositKeyMax

instance (a : Address) : Decidable a.Fits := inferInstanceAs (Decidable (_ ≤ _))

/-- The header stored in the index row of the record, if there is one that can be read. -/
def row (a : Address) (db : Db) : Option Header :=
  if a.Fits then (db[a.index]?).bind KeyIndex.decode else none

end Address

def SetData.address (sd : SetData) : Address :=
  ⟨sd.ringPrefix, sd.data.header.factoryId, sd.data.header.classId, sd.data.key⟩

def Request.address (req : Request) : Address :=
  ⟨req.ringPrefix, req.data.header.factoryId, req.data.header.classId, req.data.key⟩

namespace LocalData

theorem compositKey_indexKey (sd : SetData) {h : Header} (hi : h.SameIds sd.data.header) :
    (sd.indexKey h).compositKey = if sd.address.Fits then some sd.address.index else none := by
  by_cases hf : sd.address.Fits
  · have hf' : 30 + (sd.indexKey h).key.length ≤ compositKeyMax := hf
    rw [KeyIndex.compositKey_eq, if_pos hf', if_pos hf]
    simp only [SetData.indexKey, Address.index, SetData.address, hi.1, hi.2]
  · have hf' : ¬ 30 + (sd.indexKey h).key.length ≤ compositKeyMax := hf
    rw [KeyIndex.compositKey_eq, if_neg hf', if_neg hf]

theorem pair_indexKey (sd : SetData) {h : Header} (hi : h.SameIds sd.data.header)
    (hf : sd.address.Fits) : (sd.indexKey h).pair = some (sd.address.index, rowBytes h) := by
  simp only [KeyIndex.pair, compositKey_indexKey sd hi, if_pos hf, KeyIndex.value_eq]
  rfl

theorem pair_indexKey_none (sd : SetData) {h : Header} (hi : h.SameIds sd.data.header)
    (hf : ¬ sd.address.Fits) : (sd.indexKey h).pair = none := by
  simp only [KeyIndex.pair, compositKey_indexKey sd hi, if_neg hf]
  rfl

theorem dataKey_eq (sd : SetData) {h : Header} (hi : h.SameIds sd.data.header)
    (hf : sd.address.Fits) : dataKey sd.data.key h = .ok (sd.address.data h.revision) := by
  have hl : sd.data.key.length + 20 ≤ compositKeyMax := by
    have h₀ : 30 + sd.data.key.length ≤ compositKeyMax := hf
    omega
  rw [dataKey, if_neg (Nat.not_lt.mpr hl), KeyIndex.lookupDataKey_eq hl]
  simp only [Address.data, SetData.address, hi.1, hi.2]

def KeepsIds (change : Header → Except Fail Header) : Prop :=
  ∀ h h', change h = .ok h' → h'.SameIds h

theorem updated_ok {rev now : UInt64} {size : UInt32} {h h' : Header} (hc : updated rev now size h = .ok h') :
    h.revision = rev ∧ h' = { h with revision := h.revision + 1, timestamp := now, size := size } := by
  unfold updated at hc
  split at hc
  · cases hc
  · next hr => exact ⟨not_not.mp hr, (Except.ok.inj hc).symm⟩

theorem deleted_ok {h h' : Header} (hc : deleted h = .ok h') :
    h.state ≠ dataStateDeleted ∧ h' = { h with state := dataStateDeleted, revision := h.revision + 1 } := by
  unfold deleted at hc
  split at hc
  · cases hc
  · next hs => exact ⟨hs, (Except.ok.inj hc).symm⟩

theorem wasReset_ok {now : UInt64} {size : UInt32} {h h' : Header} (hc : wasReset now size h = .ok h') :
    h' = { h with revision := 1, timestamp := now, size := size } := (Except.ok.inj hc).symm

theorem updated_ids {rev now : UInt64} {size : UInt32} : KeepsIds (updated rev now size) := by
  intro h h' hc
  rw [(updated_ok hc).2]
  exact ⟨rfl, rfl⟩

theorem deleted_ids : KeepsIds deleted := by
  intro h h' hc
  rw [(deleted_ok hc).2]
  exact ⟨rfl, rfl⟩

theorem wasReset_ids {now : UInt64} {size : UInt32} : KeepsIds (wasReset now size) := by
  intro h h' hc
  rw [wasReset_ok hc]
  exact ⟨rfl, rfl⟩

theorem edit_of_row {verb : Verb} {change : Header → Except Fail Header} {store : Db → Bytes → Db}
    {db : Db} {sd : SetData} {d : Header} (hd : sd.address.row db = some d)
    (hc : KeepsIds change) :
    edit verb change store db sd =
      if !d.updatable then ⟨db, sd.data.header.withRow d, some (.immutable verb)⟩
      else
        match change (sd.data.header.withRow d) with
        | .error e => ⟨db, sd.data.header.withRow d, some e⟩
        | .ok h => ⟨store (db.insert sd.address.index (rowBytes h)) (sd.address.data h.revision),
          h, none⟩ := by
  unfold Address.row at hd
  split at hd
  · next hf =>
    obtain ⟨bytes, hb, hdec⟩ := Option.bind_eq_some_iff.mp hd
    rcases KeyIndex.val_cases bytes with ⟨d', hd', hval⟩ | ⟨hn, -⟩
    · obtain rfl : d' = d := Option.some.inj (hd'.symm.trans hdec)
      have hu : (sd.data.header.withRow d').updatable = d'.updatable := rfl
      simp only [edit, compositKey_indexKey sd ⟨rfl, rfl⟩, if_pos hf, hb, hval, hu]
      split
      · rfl
      · cases hch : change (sd.data.header.withRow d') with
        | error e => rfl
        | ok h =>
          have hi : h.SameIds (sd.data.header.withRow d') := hc _ _ hch
          simp only [KeyIndex.value_eq, dataKey_eq sd hi hf]
    · simp [hn] at hdec
  · cases hd

theorem edit_of_no_row {verb : Verb} {change : Header → Except Fail Header}
    {store : Db → Bytes → Db} {db : Db} {sd : SetData} (hd : sd.address.row db = none) :
    (edit verb change store db sd).err.isSome ∧ (edit verb change store db sd).db = db ∧
      (edit verb change store db sd).header.SameIds sd.data.header := by
  unfold Address.row at hd
  split at hd
  · next hf =>
    cases hb : db[sd.address.index]? with
    | none =>
      simp only [edit, compositKey_indexKey sd ⟨rfl, rfl⟩, if_pos hf, hb]
      exact ⟨rfl, trivial, rfl, rfl⟩
    | some bytes =>
      rw [hb, Option.bind_some] at hd
      rcases KeyIndex.val_cases bytes with ⟨d, hd', -⟩ | ⟨-, hval⟩
      · simp [hd] at hd'
      · have hv := hval sd.data.header
        have hi := KeyIndex.val_ids sd.data.header bytes
        generalize hp : KeyIndex.val sd.data.header bytes = p at hv hi
        obtain ⟨h, ok⟩ := p
        obtain rfl : ok = false := hv
        simp only [edit, compositKey_indexKey sd ⟨rfl, rfl⟩, if_pos hf, hb, hp]
        exact ⟨rfl, trivial, hi⟩
  · next hf =>
    simp only [edit, compositKey_indexKey sd ⟨rfl, rfl⟩, if_neg hf]
    exact ⟨rfl, trivial, rfl, rfl⟩

section Outcome

variable {verb : Verb} {change : Header → Except Fail Header} {store : Db → Bytes → Db} {db : Db}
  {sd : SetData}

theorem edit_ids (hc : KeepsIds change) :
    (edit verb change store db sd).header.SameIds sd.data.header := by
  cases hd : sd.address.row db with
  | none => exact (edit_of_no_row hd).2.2
  | some d =>
    rw [edit_of_row hd hc]
    split
    · exact ⟨rfl, rfl⟩
    · cases hch : change (sd.data.header.withRow d) with
      | error e => exact ⟨rfl, rfl⟩
      | ok h =>
        have hi : h.SameIds (sd.data.header.withRow d) := hc _ _ hch
        exact hi

theorem edit_failed (hc : KeepsIds change)
    (he : (edit verb change store db sd).err ≠ none) : (edit verb change store db sd).db = db := by
  cases hd : sd.address.row db with
  | none => exact (edit_of_no_row hd).2.1
  | some d =>
    rw [edit_of_row hd hc] at he ⊢
    split
    · rfl
    · next hu =>
      cases hch : change (sd.data.header.withRow d) with
      | error e => rfl
      | ok h => simp [hu, hch] at he

theorem edit_ok (hc : KeepsIds change)
    (he : (edit verb change store db sd).err = none) :
    ∃ d, sd.address.row db = some d ∧ d.updatable = true ∧
      change (sd.data.header.withRow d) = .ok (edit verb change store db sd).header := by
  cases hd : sd.address.row db with
  | none =>
    have hn : (edit verb change store db sd).err.isSome := (edit_of_no_row hd).1
    simp [he] at hn
  | some d =>
    rw [edit_of_row hd hc] at he ⊢
    cases hu : d.updatable with
    | false => simp [hu] at he
    | true =>
      cases hch : change (sd.data.header.withRow d) with
      | error e => simp [hu, hch] at he
      | ok h => exact ⟨d, rfl, hu, hch⟩

end Outcome

section Create

variable {sd : SetData} (now : UInt64)

theorem pair_fresh (hf : sd.address.Fits) :
    (sd.indexKey (fresh now sd)).pair = some (sd.address.index, rowBytes (fresh now sd)) :=
  pair_indexKey sd ⟨rfl, rfl⟩ hf

theorem dataKey_fresh (hf : sd.address.Fits) :
    dataKey sd.data.key (fresh now sd) = .ok (sd.address.data 1) := dataKey_eq sd ⟨rfl, rfl⟩ hf

theorem pair_fresh_none (hf : ¬ sd.address.Fits) : (sd.indexKey (fresh now sd)).pair = none :=
  pair_indexKey_none sd ⟨rfl, rfl⟩ hf

/-- A create either fails and changes no row, or stores the fresh header and the value. -/
theorem create_outcome (db : Db) :
    ((create db now sd).err ≠ none ∧ (create db now sd).db = db ∨
      (create db now sd).err = none ∧ sd.address.Fits ∧ (create db now sd).db =
        (db.insert sd.address.index (rowBytes (fresh now sd))).insert (sd.address.data 1) sd.data.value) ∧
      (create db now sd).header.SameIds sd.data.header := by
  have hi : (fresh now sd).SameIds sd.data.header := ⟨rfl, rfl⟩
  by_cases hf : sd.address.Fits
  · cases hk : db[sd.address.index]? with
    | none =>
      simp only [create, pair_fresh now hf, dataKey_fresh now hf, hk]
      exact ⟨.inr ⟨trivial, hf, trivial⟩, hi⟩
    | some ev =>
      have hv := (KeyIndex.val_ids (fresh now sd) ev).trans hi
      generalize hr : KeyIndex.val (fresh now sd) ev = r at hv
      obtain ⟨h, ok⟩ := r
      cases ok with
      | false =>
        simp only [create, pair_fresh now hf, dataKey_fresh now hf, hk, hr]
        exact ⟨.inl ⟨by simp, trivial⟩, hv⟩
      | true =>
        simp only [create, pair_fresh now hf, dataKey_fresh now hf, hk, hr]
        split
        · exact ⟨.inl ⟨by simp, rfl⟩, hv⟩
        · exact ⟨.inr ⟨rfl, hf, rfl⟩, hv⟩
  · simp only [create, pair_fresh_none now hf]
    exact ⟨.inl ⟨by simp, trivial⟩, hi⟩

end Create

end LocalData

end Tarantula
