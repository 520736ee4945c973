import Tarantula.Runs
import Tarantula.Versions

/-! The four writes of a node to its own store: what each makes of the version of a
record, what rows it puts, and what is true of the rows of any store they build. -/

namespace Tarantula

inductive Write
  | create | update | delete | reset
  deriving DecidableEq, Repr

namespace Write

def op : Write → Db → UInt64 → SetData → Done
  | create => LocalData.create
  | update => LocalData.update
  | delete => fun db _ => LocalData.delete db
  | reset => LocalData.reset

/-- What a call with header `h` makes of a version. -/
def next (value : Bytes) (h : Header) : Write → Option Version → Option Version
  | create, v => some (.created value h.state h.updatable v)
  | update, v => v.map (.updated value h.revision)
  | delete, v => v.map .deleted
  | reset, v => v.map (.wasReset value)

section Op

variable (write : Write) {db : Db} (now : UInt64) {sd : SetData}

theorem op_update (db : Db) (sd : SetData) : update.op db now sd =
    LocalData.edit .update (LocalData.updated sd.data.header.revision now (UInt32.ofNat sd.data.value.length))
      (fun db dk => db.insert dk sd.data.value) db sd := rfl

theorem op_delete (db : Db) (sd : SetData) : delete.op db now sd =
    LocalData.edit .delete LocalData.deleted (fun db dk => db.erase dk) db sd := rfl

theorem op_reset (db : Db) (sd : SetData) : reset.op db now sd =
    LocalData.edit .reset (LocalData.wasReset now (UInt32.ofNat sd.data.value.length))
      (fun db dk => db.insert dk sd.data.value) db sd := rfl

theorem op_cases (sd : SetData) : write = create ∨
    ∃ verb change store, LocalData.KeepsIds change ∧
      ∀ db, write.op db now sd = LocalData.edit verb change store db sd := by
  cases write with
  | create => exact .inl rfl
  | update => exact .inr ⟨_, _, _, LocalData.updated_ids, fun db => op_update now db sd⟩
  | delete => exact .inr ⟨_, _, _, LocalData.deleted_ids, fun db => op_delete now db sd⟩
  | reset => exact .inr ⟨_, _, _, LocalData.wasReset_ids, fun db => op_reset now db sd⟩

theorem op_ids (db : Db) (sd : SetData) : (write.op db now sd).header.SameIds sd.data.header := by
  obtain rfl | ⟨verb, change, store, hc, hop⟩ := op_cases write now sd
  · exact (LocalData.create_outcome now db).2
  · rw [hop]
    exact LocalData.edit_ids hc

theorem op_failed (he : (write.op db now sd).err ≠ none) : (write.op db now sd).db = db := by
  obtain rfl | ⟨verb, change, store, hc, hop⟩ := op_cases write now sd
  · rcases (LocalData.create_outcome now db).1 with ⟨-, hdb⟩ | ⟨hok, -⟩
    · exact hdb
    · exact absurd hok he
  · rw [hop] at he ⊢
    exact LocalData.edit_failed hc he

theorem op_fits {v : Option Version} (hv : Holds sd.address db v)
    (he : (write.op db now sd).err = none) : sd.address.Fits := by
  obtain rfl | ⟨verb, change, store, hc, hop⟩ := op_cases write now sd
  · exact ((LocalData.create_ok_iff now hv).mp he).1
  · rw [hop] at he
    obtain ⟨d, hd, -⟩ := LocalData.edit_ok hc he
    exact Address.fits_of_row hd

theorem op_holds (hf : sd.address.Fits) {v : Option Version} (hv : Holds sd.address db v) :
    Holds sd.address (write.op db now sd).db (write.next sd.data.value sd.data.header v) := by
  cases write with
  | create => exact LocalData.create_holds now hf hv
  | update => exact LocalData.update_holds now hf hv
  | delete => exact LocalData.delete_holds hf hv
  | reset => exact LocalData.reset_holds now hf hv

end Op

def written (value : Bytes) : Write → Option Bytes
  | create | update | reset => some value
  | delete => none

/-- The store with the index row of the record at `a` and the data row of its revision
written anew. -/
structure Rewrites (a : Address) (d : Header) (x : Option Bytes) (db db' : Db) : Prop where
  fits : a.Fits
  get : ∀ k, db'[k]? =
    if a.data d.revision = k then x else if a.index = k then some (rowBytes d) else db[k]?

theorem rewrites_insert {a : Address} (db : Db) {d : Header} {value : Bytes} (hf : a.Fits) :
    Rewrites a d (some value) db ((db.insert a.index (rowBytes d)).insert (a.data d.revision) value) :=
  ⟨hf, fun k => by rw [ExtMap.getElem?_insert, ExtMap.getElem?_insert]⟩

theorem rewrites_erase {a : Address} (db : Db) {d : Header} (hf : a.Fits) :
    Rewrites a d none db ((db.insert a.index (rowBytes d)).erase (a.data d.revision)) :=
  ⟨hf, fun k => by rw [ExtMap.getElem?_erase, ExtMap.getElem?_insert]⟩

theorem create_rewrites {db : Db} {now : UInt64} {sd : SetData}
    (he : (LocalData.create db now sd).err = none) :
    Rewrites sd.address (LocalData.fresh now sd) (some sd.data.value) db (LocalData.create db now sd).db := by
  rcases (LocalData.create_outcome now db).1 with ⟨hne, -⟩ | ⟨-, hf, hdb⟩
  · exact absurd he hne
  · rw [hdb]
    exact rewrites_insert (d := LocalData.fresh now sd) db hf

theorem edit_rewrites {verb : Verb} {change : Header → Except Fail Header} {store : Db → Bytes → Db}
    {db : Db} {sd : SetData} {x : Option Bytes} (hc : LocalData.KeepsIds change)
    (hs : ∀ h, sd.address.Fits → Rewrites sd.address h x db
      (store (db.insert sd.address.index (rowBytes h)) (sd.address.data h.revision)))
    (he : (LocalData.edit verb change store db sd).err = none) :
    Rewrites sd.address (LocalData.edit verb change store db sd).header x db
      (LocalData.edit verb change store db sd).db := by
  obtain ⟨d, hd, hu, hch⟩ := LocalData.edit_ok hc he
  rw [LocalData.edit_of_row hd hc, hu] at hch ⊢
  cases hx : change (sd.data.header.withRow d) with
  | error e => simp [hx] at hch
  | ok h' => exact hs h' (Address.fits_of_row hd)

/-- A write that succeeds rewrites its record, and a live index row shows the size of the
value. -/
theorem op_rewrites {write : Write} {db : Db} {now : UInt64} {sd : SetData}
    (he : (write.op db now sd).err = none) :
    ∃ d, Rewrites sd.address d (write.written sd.data.value) db (write.op db now sd).db ∧
      (d.state ≠ dataStateDeleted → write.written sd.data.value = some sd.data.value ∧
        d.size = UInt32.ofNat sd.data.value.length) := by
  cases write with
  | create => exact ⟨LocalData.fresh now sd, create_rewrites he, fun _ => ⟨rfl, rfl⟩⟩
  | update =>
    rw [op_update] at he ⊢
    obtain ⟨d, -, -, hc⟩ := LocalData.edit_ok LocalData.updated_ids he
    have hr := edit_rewrites LocalData.updated_ids (fun h hf => rewrites_insert db hf) he
    refine ⟨_, hr, fun _ => ⟨rfl, ?_⟩⟩
    rw [(LocalData.updated_ok hc).2]
  | delete =>
    rw [op_delete] at he ⊢
    obtain ⟨d, -, -, hc⟩ := LocalData.edit_ok LocalData.deleted_ids he
    have hr := edit_rewrites LocalData.deleted_ids (fun h hf => rewrites_erase db hf) he
    refine ⟨_, hr, fun hst => absurd ?_ hst⟩
    rw [(LocalData.deleted_ok hc).2]
  | reset =>
    rw [op_reset] at he ⊢
    obtain ⟨d, -, -, hc⟩ := LocalData.edit_ok LocalData.wasReset_ids he
    have hr := edit_rewrites LocalData.wasReset_ids (fun h hf => rewrites_insert db hf) he
    refine ⟨_, hr, fun _ => ⟨rfl, ?_⟩⟩
    rw [LocalData.wasReset_ok hc]

/-- A write to the record at `a` changes nothing, or it rewrites the record. A live index row gets its
data row, whose size it shows. -/
inductive Puts (a : Address) (db db' : Db) : Prop
  | nothing (he : db' = db)
  | row (d : Header) (x : Option Bytes) (hr : Rewrites a d x db db')
      (hx : d.state ≠ dataStateDeleted → ∃ value, x = some value ∧ d.size = UInt32.ofNat value.length)

theorem op_puts (write : Write) (db : Db) (now : UInt64) (sd : SetData) :
    Puts sd.address db (write.op db now sd).db := by
  cases he : (write.op db now sd).err with
  | some e => exact .nothing (op_failed write now (by simp [he]))
  | none =>
    obtain ⟨d, hr, hlive⟩ := op_rewrites he
    exact .row d _ hr fun hst => ⟨_, hlive hst⟩

namespace Rewrites

variable {a : Address} {d : Header} {x : Option Bytes} {db db' : Db}

theorem index (h : Rewrites a d x db db') (a' : Address) :
    db'[a'.index]? = if a = a' then some (rowBytes d) else db[a'.index]? := by
  rw [h.get, if_neg (Address.index_ne_data h.fits a' _).symm]
  by_cases he : a = a'
  · rw [if_pos he, if_pos (he ▸ rfl)]
  · rw [if_neg he, if_neg (fun h => he (Address.index_inj h))]

theorem row (h : Rewrites a d x db db') : a.row db' = some (Header.withRow default d) := by
  rw [Address.row, if_pos h.fits, h.index, if_pos rfl, Option.bind_some, decode_rowBytes]

theorem index_cases (h : Rewrites a d x db db') {a' : Address} {d' : Header}
    (hk : db'[a'.index]? = some (rowBytes d')) :
    a = a' ∧ d.revision = d'.revision ∧ d.size = d'.size ∧ d.state = d'.state ∨
      a ≠ a' ∧ db[a'.index]? = some (rowBytes d') := by
  rw [h.index] at hk
  by_cases ha : a = a'
  · rw [if_pos ha] at hk
    have hrow := rowBytes_inj (Option.some.inj hk)
    simp only [Header.withRow, Header.mk.injEq] at hrow
    exact .inl ⟨ha, hrow.1, hrow.2.2.2.2.1, hrow.2.2.2.2.2.2⟩
  · rw [if_neg ha] at hk
    exact .inr ⟨ha, hk⟩

theorem data_other (h : Rewrites a d x db db') {a' : Address} (hf : a'.Fits)
    (hne : ∀ rev rev', a.data rev ≠ a'.data rev') (rev : UInt64) : db'[a'.data rev]? = db[a'.data rev]? := by
  rw [h.get, if_neg (hne _ _), if_neg (Address.index_ne_data hf a _)]

end Rewrites

end Write

/-- All rows of the store are index rows and data rows of records. -/
def OnlyRows (db : Db) : Prop :=
  ∀ k v, db[k]? = some v →
    (∃ (a : Address) (d : Header), a.Fits ∧ k = a.index ∧ v = rowBytes d) ∨
      ∃ (a : Address) (rev : UInt64), a.Fits ∧ k = a.data rev

theorem OnlyRows.rewrites {a : Address} {d : Header} {x : Option Bytes} {db db' : Db} (h : OnlyRows db)
    (hr : Write.Rewrites a d x db db') : OnlyRows db' := by
  intro k v hk
  rw [hr.get] at hk
  split at hk
  · next he => exact .inr ⟨a, _, hr.fits, he.symm⟩
  · split at hk
    · next he => exact .inl ⟨a, d, hr.fits, he.symm, (Option.some.inj hk).symm⟩
    · exact h k v hk

theorem OnlyRows.index_row {db : Db} (h : OnlyRows db) {a : Address} {v : Bytes}
    (hv : db[a.index]? = some v) :
    a.Fits ∧ ∃ d, v = rowBytes d := by
  rcases h _ v hv with ⟨a', d, hf, hk, hd⟩ | ⟨a', rev, hf, hk⟩
  · obtain rfl := Address.index_inj hk
    exact ⟨hf, d, hd⟩
  · exact absurd hk (Address.index_ne_data hf a rev)

theorem Address.eq_of_data {p : UInt32 → UInt32 → Bytes → UInt32} {a a' : Address}
    (ha : a.ringPrefix = p a.factoryId a.classId a.key)
    (ha' : a'.ringPrefix = p a'.factoryId a'.classId a'.key)
    {rev rev' : UInt64} (h : a.data rev = a'.data rev') : a = a' := by
  obtain ⟨hfid, hcid, hkey, -⟩ := Address.data_inj h
  rw [hfid, hcid, hkey, ← ha'] at ha
  cases a
  cases a'
  simp_all

/-- What is true of the rows of a store that is written with every record under its prefix `p`: the rows
are index rows and data rows, and a live index row has its data row, whose size it shows and whose value
`holds` of the record. -/
structure Placed (p : UInt32 → UInt32 → Bytes → UInt32) (holds : Address → Bytes → Prop)
    (db : Db) : Prop where
  rows : OnlyRows db
  placed : ∀ (a : Address) v, db[a.index]? = some v → a.ringPrefix = p a.factoryId a.classId a.key
  live : ∀ (a : Address) (d : Header), db[a.index]? = some (rowBytes d) → d.state ≠ dataStateDeleted →
    ∃ value, holds a value ∧ db[a.data d.revision]? = some value ∧ d.size = UInt32.ofNat value.length

namespace Placed

variable {p : UInt32 → UInt32 → Bytes → UInt32} {holds holds' : Address → Bytes → Prop} {db db' : Db}

theorem empty : Placed p holds ∅ := by
  refine ⟨fun k v h => ?_, fun a v h => ?_, fun a d h => ?_⟩ <;> simp at h

theorem rewrites (hs : Placed p holds db) {a : Address} {d : Header} {x : Option Bytes}
    (ha : a.ringPrefix = p a.factoryId a.classId a.key) (hr : Write.Rewrites a d x db db')
    (hx : d.state ≠ dataStateDeleted →
      ∃ value, holds' a value ∧ x = some value ∧ d.size = UInt32.ofNat value.length)
    (hother : ∀ a' value, a ≠ a' → holds a' value → holds' a' value) : Placed p holds' db' := by
  refine ⟨hs.rows.rewrites hr, fun a' v hk => ?_, fun a' d' hk hlive => ?_⟩
  · rw [hr.index] at hk
    split at hk
    · next he => exact he ▸ ha
    · exact hs.placed a' v hk
  · rcases hr.index_cases hk with ⟨rfl, hrev, hsize, hst⟩ | ⟨hne, hk⟩
    · -- the row just written
      obtain ⟨value, hholds, rfl, hv⟩ := hx (by rwa [hst])
      exact ⟨value, hholds, by rw [hr.get, if_pos (by rw [hrev])], by rw [← hsize, hv]⟩
    · obtain ⟨value, hholds, hv, hsize⟩ := hs.live a' d' hk hlive
      have hdata : ∀ rev rev', a.data rev ≠ a'.data rev' := fun _ _ h =>
        hne (Address.eq_of_data ha (hs.placed a' _ hk) h)
      exact ⟨value, hother a' value hne hholds, by rw [hr.data_other (hs.rows.index_row hk).1 hdata, hv],
        hsize⟩

end Placed

/-- Every key is under its token, whatever its value. -/
abbrev WellStored (hash32 : Bytes → UInt32) : Db → Prop := Placed (fun _ _ key => hash32 key) fun _ _ => True

structure LocalWrite where
  write : Write
  now : UInt64
  sd : SetData

def LocalWrite.step (db : Db) (e : LocalWrite) : Option Db := some (e.write.op db e.now e.sd).db

def LocalWrite.Addressed (hash32 : Bytes → UInt32) (_ : Db) (e : LocalWrite) : Prop :=
  e.sd.ringPrefix = hash32 e.sd.data.key

instance (hash32 : Bytes → UInt32) (db : Db) (e : LocalWrite) :
    Decidable (LocalWrite.Addressed hash32 db e) := inferInstanceAs (Decidable (_ = _))

theorem wellStored_of_reaches {hash32 : Bytes → UInt32} {db : Db}
    (h : Reaches LocalWrite.step (LocalWrite.Addressed hash32) ∅ db) : WellStored hash32 db := by
  refine h.invariant .empty fun db e db' hs ha he => ?_
  obtain rfl := Option.some.inj he
  cases e.write.op_puts db e.now e.sd with
  | nothing hdb => rwa [hdb]
  | row d x hr hx =>
    refine hs.rewrites (a := e.sd.address) ha hr (fun hst => ?_) fun _ _ _ _ => trivial
    obtain ⟨value, hv⟩ := hx hst
    exact ⟨value, trivial, hv⟩

end Tarantula
