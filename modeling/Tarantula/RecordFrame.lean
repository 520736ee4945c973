import Tarantula.RangeSync

/-! What a write does to the other records of the store. An index key names the whole
address, a data key leaves out the prefix: records that differ in the prefix only have their
data rows in common. -/

namespace Tarantula

/-- What changes the store of a node: the four writes, and the batches of a handoff. -/
inductive StoreEvent
  | write (e : LocalWrite)
  | set (batch : List Data)

def StoreEvent.step (db : Db) : StoreEvent → Option Db
  | write e => e.step db
  | set batch => some (LocalData.set db batch)

theorem OnlyRows.setRow {db : Db} (h : OnlyRows db) (d : Data) : OnlyRows (LocalData.setRow db d) := by
  by_cases hf : d.address.Fits
  · rcases LocalData.setRow_cases db hf with ⟨-, x, -, hr⟩ | ⟨-, he⟩
    · exact h.rewrites hr
    · rwa [he]
  · rwa [LocalData.setRow_oversize db hf]

theorem OnlyRows.set {db : Db} (h : OnlyRows db) (batch : List Data) :
    OnlyRows (LocalData.set db batch) := by
  induction batch generalizing db with
  | nil => exact h
  | cons d batch ih => exact ih (h.setRow d)

theorem OnlyRows.op {db : Db} (h : OnlyRows db) (e : LocalWrite) :
    OnlyRows (e.write.op db e.now e.sd).db := by
  cases e.write.op_puts db e.now e.sd with
  | nothing he => rwa [he]
  | row d x hr _ => exact h.rewrites hr

theorem onlyRows_of_reaches {ok : Db → StoreEvent → Prop} {db : Db}
    (h : Reaches StoreEvent.step ok ∅ db) : OnlyRows db := by
  refine h.invariant (fun k v hk => by simp at hk) fun db e db' hrows _ he => ?_
  cases e with
  | write e =>
    obtain rfl := Option.some.inj he
    exact hrows.op e
  | set batch =>
    obtain rfl := Option.some.inj he
    exact hrows.set batch

namespace Write

/-- The revision whose data row a write puts, by the index row it finds and the revision it
is given. `none` where the write is refused. -/
def target (given : UInt64) : Write → Option Header → Option UInt64
  | create, none => some 1
  | create, some d => if d.state = dataStateDeleted then some 1 else none
  | update, some d => if d.updatable ∧ d.revision = given then some (d.revision + 1) else none
  | delete, some d => if d.updatable ∧ d.state ≠ dataStateDeleted then some (d.revision + 1) else none
  | reset, some d => if d.updatable then some 1 else none
  | update, none | delete, none | reset, none => none

theorem target_immutable (write : Write) (given : UInt64) {d : Header} (hu : d.updatable = false)
    (hs : d.state ≠ dataStateDeleted) : write.target given (some d) = none := by
  cases write <;> simp [target, hu, hs]

end Write

namespace LocalWrite

def target (db : Db) (e : LocalWrite) : Option UInt64 :=
  if e.sd.address.Fits then e.write.target e.sd.data.header.revision (e.sd.address.row db) else none

/-- The record at `a` differs from the one that is written in nothing but the prefix, it is
live at the revision that is written, and its value is not the one that is written. -/
def Clobbers (db : Db) (e : LocalWrite) (a : Address) : Prop :=
  e.sd.address = { a with ringPrefix := e.sd.ringPrefix } ∧
    ∃ d, a.row db = some d ∧ d.state ≠ dataStateDeleted ∧ e.target db = some d.revision ∧
      db[a.data d.revision]? ≠ e.write.written e.sd.data.value

end LocalWrite

/-- What a write of one of the four kinds does, by the row it finds. -/
def Write.Outcome (a : Address) (x : Option Bytes) (db db' : Db) : Option UInt64 → Prop
  | none => db' = db
  | some rev => ∃ d, d.revision = rev ∧ Write.Rewrites a d x db db'

section Target

variable {db : Db} {sd : SetData}

theorem row_of_index {a : Address} (hf : a.Fits) {d : Header} (hd : db[a.index]? = some (rowBytes d)) :
    a.row db = some (Header.withRow default d) := by
  rw [Address.row, if_pos hf, hd, Option.bind_some, decode_rowBytes]

theorem create_target (hrows : OnlyRows db) (hf : sd.address.Fits) (now given : UInt64) :
    Write.Outcome sd.address (some sd.data.value) db (LocalData.create db now sd).db
      (Write.target given .create (sd.address.row db)) := by
  have hnew : ∃ d : Header, d.revision = 1 ∧ Write.Rewrites sd.address d (some sd.data.value) db
      ((db.insert sd.address.index (rowBytes (LocalData.fresh now sd))).insert (sd.address.data 1)
        sd.data.value) :=
    ⟨LocalData.fresh now sd, rfl, Write.rewrites_insert (d := LocalData.fresh now sd) db hf⟩
  cases hget : db[sd.address.index]? with
  | none =>
    rw [LocalData.create_of_none now hf hget, Address.row, if_pos hf, hget]
    exact hnew
  | some v =>
    obtain ⟨-, d, rfl⟩ := hrows.index_row hget
    rw [LocalData.create_of_row now hf hget, row_of_index hf hget]
    have hst : (Header.withRow default d).state = d.state := rfl
    by_cases hs : d.state = dataStateDeleted
    · rw [if_neg (not_not.mpr hs), Write.target, hst, if_pos hs]
      exact hnew
    · rw [if_pos hs, Write.target, hst, if_neg hs]
      rfl

/-- An edit by the row it finds: refused, or the record is rewritten with the changed header. -/
theorem edit_target {verb : Verb} {change : Header → Except Fail Header} {store : Db → Bytes → Db}
    {x : Option Bytes} (hc : LocalData.KeepsIds change)
    (hs : ∀ h, sd.address.Fits → Write.Rewrites sd.address h x db
      (store (db.insert sd.address.index (rowBytes h)) (sd.address.data h.revision)))
    {target : Option Header → Option UInt64} (hnone : target none = none)
    (hsome : ∀ d, target (some d) =
      if d.updatable then (change (sd.data.header.withRow d)).toOption.map (·.revision) else none) :
    Write.Outcome sd.address x db (LocalData.edit verb change store db sd).db
      (target (sd.address.row db)) := by
  cases hrow : sd.address.row db with
  | none =>
    rw [hnone]
    exact (LocalData.edit_of_no_row hrow).2.1
  | some d =>
    rw [hsome, LocalData.edit_of_row hrow hc]
    cases hu : d.updatable with
    | false => exact rfl
    | true =>
      cases hch : change (sd.data.header.withRow d) with
      | error e => exact rfl
      | ok h => exact ⟨h, rfl, hs h (Address.fits_of_row hrow)⟩

theorem op_target (hrows : OnlyRows db) (e : LocalWrite) :
    Write.Outcome e.sd.address (e.write.written e.sd.data.value) db (e.write.op db e.now e.sd).db
      (e.target db) := by
  obtain ⟨write, now, sd⟩ := e
  by_cases hf : sd.address.Fits
  · simp only [LocalWrite.target, if_pos hf]
    cases write with
    | create => exact create_target hrows hf now _
    | update =>
      rw [Write.op_update]
      refine edit_target LocalData.updated_ids (fun h hf => Write.rewrites_insert db hf) rfl fun d => ?_
      by_cases hu : d.updatable = true
      · by_cases hr : d.revision = sd.data.header.revision <;>
          simp [Write.target, LocalData.updated, Header.withRow, hu, hr, Except.toOption]
      · simp [Write.target, hu]
    | delete =>
      rw [Write.op_delete]
      refine edit_target LocalData.deleted_ids (fun h hf => Write.rewrites_erase db hf) rfl fun d => ?_
      by_cases hu : d.updatable = true
      · by_cases hs : d.state = dataStateDeleted <;>
          simp [Write.target, LocalData.deleted, Header.withRow, hu, hs, Except.toOption]
      · simp [Write.target, hu]
    | reset =>
      rw [Write.op_reset]
      refine edit_target LocalData.wasReset_ids (fun h hf => Write.rewrites_insert db hf) rfl fun d => ?_
      by_cases hu : d.updatable = true <;>
        simp [Write.target, LocalData.wasReset, hu, Except.toOption]
  · simp only [LocalWrite.target, if_neg hf]
    cases write.op_puts db now sd with
    | nothing he => exact he
    | row d x hr => exact absurd hr.fits hf

end Target

section Frame

variable {db : Db} {e : LocalWrite} {gd : Request}

theorem data_eq_iff {a a' : Address} {rev rev' : UInt64} : a.data rev = a'.data rev' ↔
    a = { a' with ringPrefix := a.ringPrefix } ∧ rev = rev' := by
  constructor
  · intro h
    obtain ⟨hfid, hcid, hkey, hrev⟩ := Address.data_inj h
    cases a
    exact ⟨by simp_all, hrev⟩
  · rintro ⟨ha, rfl⟩
    rw [ha]
    rfl

theorem get_live_eq_iff {db' : Db} (hf : gd.address.Fits) {d : Header}
    (hd : db[gd.address.index]? = some (rowBytes d)) (hd' : db'[gd.address.index]? = some (rowBytes d))
    (hs : d.state ≠ dataStateDeleted) : LocalData.get db' gd = LocalData.get db gd ↔
      db'[gd.address.data d.revision]? = db[gd.address.data d.revision]? := by
  rw [LocalData.get_of_row hf hd, LocalData.get_of_row hf hd', if_neg hs, if_neg hs]
  cases db'[gd.address.data d.revision]? <;> cases db[gd.address.data d.revision]? <;> simp

/-- A write changes what `get` answers for another record exactly if it clobbers it. -/
theorem get_op_eq_iff (hrows : OnlyRows db) (hne : e.sd.address ≠ gd.address) :
    LocalData.get (e.write.op db e.now e.sd).db gd = LocalData.get db gd ↔
      ¬ e.Clobbers db gd.address := by
  have hout := op_target hrows e
  cases ht : e.target db with
  | none =>
    rw [ht] at hout
    have hdb : (e.write.op db e.now e.sd).db = db := hout
    simp [hdb, LocalWrite.Clobbers, ht]
  | some rev =>
    rw [ht] at hout
    obtain ⟨d₀, rfl, hr⟩ := hout
    have hindex : (e.write.op db e.now e.sd).db[gd.address.index]? = db[gd.address.index]? := by
      rw [hr.index, if_neg hne]
    cases hget : db[gd.address.index]? with
    | none =>
      have hrow : gd.address.row db = none := by simp [Address.row, hget]
      refine iff_of_true (LocalData.get_congr hindex ?_) ?_
      · simp [Address.row_congr hindex, hrow]
      · simp [LocalWrite.Clobbers, hrow]
    | some v =>
      obtain ⟨hf, d, rfl⟩ := hrows.index_row hget
      have hrow := row_of_index hf hget
      by_cases hs : d.state = dataStateDeleted
      · refine iff_of_true (LocalData.get_congr hindex ?_) ?_
        · intro h hh hlive
          rw [Address.row_congr hindex, hrow, Option.some.injEq] at hh
          subst hh
          exact absurd hs hlive
        · rintro ⟨-, d', hd', hlive, -⟩
          rw [hrow, Option.some.injEq] at hd'
          subst hd'
          exact hlive hs
      · -- a live record: its data row is the one that is written, or it stays
        rw [get_live_eq_iff hf hget (hindex.trans hget) hs, hr.get,
          if_neg (Address.index_ne_data hf _ _)]
        have hcl : e.Clobbers db gd.address ↔ e.sd.address.data d₀.revision = gd.address.data d.revision ∧
            db[gd.address.data d.revision]? ≠ e.write.written e.sd.data.value := by
          simp only [LocalWrite.Clobbers, ht, hrow, Option.some.injEq, exists_eq_left', data_eq_iff]
          constructor
          · rintro ⟨ha, -, hrev, hv⟩
            exact ⟨⟨ha, hrev⟩, hv⟩
          · rintro ⟨⟨ha, hrev⟩, hv⟩
            exact ⟨ha, hs, hrev, hv⟩
        rw [hcl]
        by_cases hk : e.sd.address.data d₀.revision = gd.address.data d.revision
        · simp [hk, eq_comm]
        · simp [hk]

theorem row_op_immutable (hrows : OnlyRows db) {a : Address} {d : Header} (hrow : a.row db = some d)
    (hu : d.updatable = false) (hs : d.state ≠ dataStateDeleted) :
    (e.write.op db e.now e.sd).db = db ∨
      e.sd.address ≠ a ∧ a.row (e.write.op db e.now e.sd).db = some d := by
  have hout := op_target hrows e
  cases ht : e.target db with
  | none =>
    rw [ht] at hout
    exact .inl hout
  | some rev =>
    rw [ht] at hout
    obtain ⟨d₀, -, hr⟩ := hout
    have hne : e.sd.address ≠ a := by
      rintro rfl
      rw [LocalWrite.target, if_pos hr.fits, hrow, Write.target_immutable _ _ hu hs] at ht
      cases ht
    refine .inr ⟨hne, ?_⟩
    rw [← hrow]
    exact Address.row_congr (by rw [hr.index, if_neg hne])

/-- In a run of writes that clobber it nowhere, a record that is not updatable never changes. -/
theorem get_immutable {t : Db} (hrows : OnlyRows db) {d : Header} (hrow : gd.address.row db = some d)
    (hu : d.updatable = false) (hs : d.state ≠ dataStateDeleted)
    (h : Reaches LocalWrite.step (fun db e => ¬ e.Clobbers db gd.address) db t) :
    LocalData.get t gd = LocalData.get db gd := by
  have hinv : OnlyRows t ∧ gd.address.row t = some d ∧ LocalData.get t gd = LocalData.get db gd := by
    induction h with
    | refl => exact ⟨hrows, hrow, rfl⟩
    | tail _ hstep ih =>
      obtain ⟨e, hok, he⟩ := hstep
      obtain ⟨hrows, hrow, hsame⟩ := ih
      obtain rfl := Option.some.inj he
      rcases row_op_immutable (e := e) hrows hrow hu hs with hdb | ⟨hne, hrow'⟩
      · rw [hdb]
        exact ⟨hrows, hrow, hsame⟩
      · exact ⟨hrows.op e, hrow', ((get_op_eq_iff hrows hne).mpr hok).trans hsame⟩
  exact hinv.2.2

/-- In every store that writes and handoffs build, a write leaves the answer for another
record as it is, except for a record it clobbers; and a live record that is not updatable
keeps its answer through all writes, until one clobbers it. -/
theorem write_frame_iff (h : Reaches StoreEvent.step (fun _ _ => True) ∅ db) :
    (∀ (e : LocalWrite) (gd : Request), e.sd.address ≠ gd.address →
      (LocalData.get (e.write.op db e.now e.sd).db gd = LocalData.get db gd ↔
        ¬ e.Clobbers db gd.address)) ∧
    ∀ (gd : Request) d, gd.address.row db = some d → d.updatable = false → d.state ≠ dataStateDeleted →
      ∀ t, Reaches LocalWrite.step (fun db e => ¬ e.Clobbers db gd.address) db t →
        LocalData.get t gd = LocalData.get db gd := by
  have hrows := onlyRows_of_reaches h
  exact ⟨fun e gd hne => get_op_eq_iff hrows hne,
    fun gd d hrow hu hs t ht => get_immutable hrows hrow hu hs ht⟩

def sampleFixed (ringPrefix : UInt32) (value : Bytes) : SetData :=
  ⟨ringPrefix, [107], value, ⟨0, 1, 1, 0, 0, false, 0⟩⟩

def sampleFixedGet : Request := ⟨7, [107], [], ⟨0, 1, 1, 0, 0, false, 0⟩⟩

theorem write_frame_iff_other_key :
    ∃ db, Reaches StoreEvent.step (fun _ _ => True) ∅ db ∧
      ∃ d, sampleFixedGet.address.row db = some d ∧ d.updatable = false ∧ d.state ≠ dataStateDeleted ∧
        let e : LocalWrite := ⟨.create, 2, ⟨7, [108], [2], default⟩⟩
        LocalData.get (e.write.op db e.now e.sd).db sampleFixedGet = LocalData.get db sampleFixedGet := by
  obtain ⟨db, hdb, hrow⟩ := exists_reaches_of_checkedRun StoreEvent.step (fun _ _ => True)
    (fun db => sampleFixedGet.address.row db = some ⟨1, 0, 0, 1, 1, false, 0⟩) ∅
    [.write ⟨.create, 1, sampleFixed 7 [1]⟩] (by decide +kernel)
  refine ⟨db, hdb, _, hrow, rfl, by decide, ?_⟩
  refine ((write_frame_iff hdb).1 ⟨.create, 2, ⟨7, [108], [2], default⟩⟩ sampleFixedGet (by decide)).mpr ?_
  rintro ⟨ha, -⟩
  exact absurd ha (by decide)

/-- Creating a record changes the value of the one of the same class and key under another
prefix, which is not updatable. -/
theorem create_changes_other_prefix :
    ∃ db, Reaches StoreEvent.step (fun _ _ => True) ∅ db ∧
      (sampleFixed 8 [2]).address ≠ sampleFixedGet.address ∧
      LocalData.get db sampleFixedGet = .ok ⟨[], [1], ⟨1, 0, 0, 1, 1, false, 0⟩⟩ ∧
      LocalData.get (Write.op .create db 2 (sampleFixed 8 [2])).db sampleFixedGet =
        .ok ⟨[], [2], ⟨1, 0, 0, 1, 1, false, 0⟩⟩ :=
  exists_reaches_of_checkedRun StoreEvent.step (fun _ _ => True)
    (fun db => (sampleFixed 8 [2]).address ≠ sampleFixedGet.address ∧
      LocalData.get db sampleFixedGet = .ok ⟨[], [1], ⟨1, 0, 0, 1, 1, false, 0⟩⟩ ∧
      LocalData.get (Write.op .create db 2 (sampleFixed 8 [2])).db sampleFixedGet =
        .ok ⟨[], [2], ⟨1, 0, 0, 1, 1, false, 0⟩⟩) ∅
    [.write ⟨.create, 1, sampleFixed 7 [1]⟩] (by decide +kernel)

end Frame

end Tarantula
