import Tarantula.HandoffRecords

/-! What a node reads after its own write: `get` answers with what a write has stored and
returned, except for what was written over a tombstone or as one. -/

namespace Tarantula

/-- Every `get` of the record succeeds with this value, revision and flag. -/
def Answers (a : Address) (db : Db) (value : Bytes) (revision : UInt64) (updatable : Bool) : Prop :=
  ∀ gd : Request, gd.address = a → ∃ timestamp size, LocalData.get db gd =
    .ok ⟨[], value, ⟨revision, 0, 0, timestamp, size, updatable, 0⟩⟩

def Unanswered (a : Address) (db : Db) : Prop :=
  ∀ (gd : Request) x, gd.address = a → LocalData.get db gd ≠ .ok x

def Address.Dead (a : Address) (db : Db) : Prop :=
  ∃ d, db[a.index]? = some (rowBytes d) ∧ d.state = dataStateDeleted

variable {a : Address} {db db' : Db} {d : Header} {value : Bytes}

theorem Address.Dead.unanswered (h : a.Dead db) : Unanswered a db := by
  rintro gd x rfl hx
  obtain ⟨d, hd, hs⟩ := h
  rw [LocalData.get_of_row (LocalData.get_fits hx) hd, if_pos hs] at hx
  cases hx

theorem Unanswered.not_answers (h : Unanswered a db) (revision : UInt64) (updatable : Bool) :
    ¬ Answers a db value revision updatable := by
  intro ha
  obtain ⟨timestamp, size, hx⟩ := ha ⟨a.ringPrefix, a.key, [],
    ⟨0, a.factoryId, a.classId, 0, 0, false, 0⟩⟩ rfl
  exact h _ _ rfl hx

namespace Write

theorem Rewrites.answers (h : Rewrites a d (some value) db db') (hs : d.state ≠ dataStateDeleted) :
    Answers a db' value d.revision d.updatable := by
  rintro gd rfl
  have hd : db'[gd.address.index]? = some (rowBytes d) := by rw [h.index, if_pos rfl]
  have hv : db'[gd.address.data d.revision]? = some value := by rw [h.get, if_pos rfl]
  exact ⟨_, _, LocalData.get_of_live h.fits hd hs hv⟩

theorem Rewrites.dead {x : Option Bytes} (h : Rewrites a d x db db') (hs : d.state = dataStateDeleted) :
    a.Dead db' := ⟨d, by rw [h.index, if_pos rfl], hs⟩

/-- A record that was rewritten is read with the given revision and flag where it is alive and
these are the stored ones. -/
theorem Rewrites.answers_iff (h : Rewrites a d (some value) db db') (revision : UInt64) :
    Answers a db' value revision d.updatable ↔ d.state ≠ dataStateDeleted ∧ d.revision = revision := by
  constructor
  · intro ha
    by_cases hs : d.state = dataStateDeleted
    · exact absurd ha ((h.dead hs).unanswered.not_answers _ _)
    · let gd : Request := ⟨a.ringPrefix, a.key, [], ⟨0, a.factoryId, a.classId, 0, 0, false, 0⟩⟩
      obtain ⟨timestamp, size, hx⟩ := ha gd rfl
      obtain ⟨timestamp', size', hy⟩ := h.answers hs gd rfl
      rw [hx] at hy
      simp only [Except.ok.injEq, Data.mk.injEq, Header.mk.injEq] at hy
      exact ⟨hs, hy.2.2.1.symm⟩
  · rintro ⟨hs, rfl⟩
    exact h.answers hs

end Write

namespace LocalData

variable {sd : SetData} {now : UInt64}

/-- A create returns the header it has stored, but over a tombstone the header of the
tombstone. -/
theorem create_header (he : (create db now sd).err = none) :
    (create db now sd).header =
      ((sd.address.row db).map (fresh now sd).withRow).getD (fresh now sd) := by
  have hf := (Write.create_rewrites he).fits
  rw [Address.row, if_pos hf]
  cases hk : db[sd.address.index]? with
  | none =>
    simp only [create, pair_fresh now hf, dataKey_fresh now hf, hk, Option.bind_none, Option.map_none,
      Option.getD_none]
  | some bytes =>
    rw [Option.bind_some]
    rcases KeyIndex.val_cases bytes with ⟨d, hd, hval⟩ | ⟨-, hval⟩
    · simp only [create, pair_fresh now hf, dataKey_fresh now hf, hk, hval, hd, Option.map_some,
        Option.getD_some]
      split <;> rfl
    · have hv := hval (fresh now sd)
      generalize hr : KeyIndex.val (fresh now sd) bytes = r at hv
      obtain ⟨h, ok⟩ := r
      obtain rfl : ok = false := hv
      simp [create, pair_fresh now hf, dataKey_fresh now hf, hk, hr] at he

end LocalData

namespace Write

variable {sd : SetData} {now : UInt64}

def flag (db : Db) (sd : SetData) : Write → Bool
  | create => sd.data.header.updatable
  | update | delete | reset => (sd.address.row db).any (·.updatable)

/-- Where the record is not a tombstone after the write, and a create has not returned the
revision of a tombstone. -/
def Readable (db : Db) (sd : SetData) : Write → Prop
  | create => sd.data.header.state ≠ dataStateDeleted ∧ ∀ d ∈ sd.address.row db, d.revision = 1
  | update | delete | reset => ∀ d ∈ sd.address.row db, d.state ≠ dataStateDeleted

theorem create_answers_iff (he : (LocalData.create db now sd).err = none) :
    Answers sd.address (LocalData.create db now sd).db sd.data.value
        (LocalData.create db now sd).header.revision sd.data.header.updatable ↔ create.Readable db sd := by
  refine ((Write.create_rewrites he).answers_iff _).trans ?_
  rw [LocalData.create_header he]
  refine and_congr Iff.rfl ?_
  cases sd.address.row db with
  | none => simp
  | some d => simp [Header.withRow, LocalData.fresh, eq_comm]

theorem edit_answers_iff {verb : Verb} {change : Header → Except Fail Header}
    (hc : LocalData.KeepsIds change)
    (hkeep : ∀ h h', change h = .ok h' → h'.state = h.state ∧ h'.updatable = h.updatable)
    (he : (LocalData.edit verb change (fun db dk => db.insert dk sd.data.value) db sd).err = none) :
    Answers sd.address (LocalData.edit verb change (fun db dk => db.insert dk sd.data.value) db sd).db
        sd.data.value
        (LocalData.edit verb change (fun db dk => db.insert dk sd.data.value) db sd).header.revision
        ((sd.address.row db).any (·.updatable)) ↔
      ∀ d ∈ sd.address.row db, d.state ≠ dataStateDeleted := by
  obtain ⟨d, hd, hu, hch⟩ := LocalData.edit_ok hc he
  obtain ⟨hst, hup⟩ := hkeep _ _ hch
  have hr := edit_rewrites hc (fun h hf => rewrites_insert db hf) he
  have hiff := hr.answers_iff
    (LocalData.edit verb change (fun db dk => db.insert dk sd.data.value) db sd).header.revision
  rw [hst, hup] at hiff
  simpa [hd, Header.withRow] using hiff

theorem op_answers_iff {write : Write} (hw : write ≠ .delete) (he : (write.op db now sd).err = none) :
    Answers sd.address (write.op db now sd).db sd.data.value (write.op db now sd).header.revision
      (write.flag db sd) ↔ write.Readable db sd := by
  cases write with
  | create => exact create_answers_iff he
  | update =>
    rw [op_update] at he ⊢
    refine edit_answers_iff LocalData.updated_ids (fun h h' hc => ?_) he
    rw [(LocalData.updated_ok hc).2]
    exact ⟨rfl, rfl⟩
  | delete => exact absurd rfl hw
  | reset =>
    rw [op_reset] at he ⊢
    refine edit_answers_iff LocalData.wasReset_ids (fun h h' hc => ?_) he
    rw [LocalData.wasReset_ok hc]
    exact ⟨rfl, rfl⟩

theorem delete_dead (he : (LocalData.delete db sd).err = none) :
    sd.address.Dead (LocalData.delete db sd).db := by
  obtain ⟨d, -, -, hch⟩ := LocalData.edit_ok LocalData.deleted_ids he
  refine (edit_rewrites LocalData.deleted_ids (fun h hf => rewrites_erase db hf) he).dead ?_
  rw [(LocalData.deleted_ok hch).2]

end Write

/-- The write does not create the record at `a`. -/
def LocalWrite.NoCreate (a : Address) (db : Db) (e : LocalWrite) : Prop :=
  ¬ (e.write = .create ∧ e.sd.address = a ∧ (e.write.op db e.now e.sd).err = none)

theorem Write.op_dead {write : Write} {now : UInt64} {sd : SetData} (hw : write ≠ .create)
    (hrow : ∀ d, sd.address.row db = some d → d.state = dataStateDeleted)
    (he : (write.op db now sd).err = none) : sd.address.Dead (write.op db now sd).db := by
  cases write with
  | create => exact absurd rfl hw
  | update =>
    rw [op_update] at he ⊢
    obtain ⟨d, hd, -, hch⟩ := LocalData.edit_ok LocalData.updated_ids he
    refine (edit_rewrites LocalData.updated_ids (fun h hf => rewrites_insert db hf) he).dead ?_
    rw [(LocalData.updated_ok hch).2]
    exact hrow d hd
  | delete => exact delete_dead he
  | reset =>
    rw [op_reset] at he ⊢
    obtain ⟨d, hd, -, hch⟩ := LocalData.edit_ok LocalData.wasReset_ids he
    refine (edit_rewrites LocalData.wasReset_ids (fun h hf => rewrites_insert db hf) he).dead ?_
    rw [LocalData.wasReset_ok hch]
    exact hrow d hd

theorem LocalWrite.step_dead {e : LocalWrite} (h : a.Dead db) (hn : e.NoCreate a db) :
    a.Dead (e.write.op db e.now e.sd).db := by
  obtain ⟨d, hd, hs⟩ := h
  cases he : (e.write.op db e.now e.sd).err with
  | some f =>
    rw [e.write.op_failed e.now (by simp [he])]
    exact ⟨d, hd, hs⟩
  | none =>
    by_cases ha : e.sd.address = a
    · subst ha
      refine Write.op_dead (fun hw => hn ⟨hw, rfl, he⟩) (fun d' hd' => ?_) he
      rw [Address.row, if_pos (Address.fits_of_row hd'), hd, Option.bind_some, decode_rowBytes] at hd'
      rw [← Option.some.inj hd']
      exact hs
    · obtain ⟨d', hr, -⟩ := Write.op_rewrites he
      exact ⟨d, by rw [hr.index, if_neg ha, hd], hs⟩

/-- After a write that succeeds `get` answers with the value, the flag in force and the revision
that was returned, exactly where the record was not a tombstone or a create has overwritten one of
revision 1. After a delete no `get` succeeds until a create does. -/
theorem read_your_writes_iff (write : Write) {db : Db} {now : UInt64} {sd : SetData}
    (hok : (write.op db now sd).err = none) :
    (write ≠ .delete →
      (Answers sd.address (write.op db now sd).db sd.data.value (write.op db now sd).header.revision
        (write.flag db sd) ↔ write.Readable db sd)) ∧
    (write = .delete → ∀ db',
      Reaches LocalWrite.step (fun db e => e.NoCreate sd.address db) (write.op db now sd).db db' →
        Unanswered sd.address db') := by
  refine ⟨fun hw => Write.op_answers_iff hw hok, ?_⟩
  rintro rfl db' hreach
  refine (hreach.invariant (Write.delete_dead hok) fun db e db' hdead hn he => ?_).unanswered
  obtain rfl := Option.some.inj he
  exact LocalWrite.step_dead hdead hn

def sampleCall (value : Bytes) (revision : UInt64) : SetData :=
  ⟨7, [107], value, ⟨revision, 1, 1, 0, 0, true, 0⟩⟩

theorem read_your_writes_sample :
    Answers ⟨7, 1, 1, [107]⟩ (LocalData.create ∅ 5 (sampleCall [1] 0)).db [1] 1 true ∧
      ∀ db', Reaches LocalWrite.step (fun db e => e.NoCreate ⟨7, 1, 1, [107]⟩ db)
        (LocalData.delete (LocalData.create ∅ 5 (sampleCall [1] 0)).db (sampleCall [] 0)).db db' →
          Unanswered ⟨7, 1, 1, [107]⟩ db' := by
  have hcreate : (Write.create.op ∅ 5 (sampleCall [1] 0)).err = none := by decide +kernel
  have hdelete : (Write.delete.op (LocalData.create ∅ 5 (sampleCall [1] 0)).db 6 (sampleCall [] 0)).err =
      none := by decide +kernel
  have hrow : (sampleCall [1] 0).address.row ∅ = none := by decide +kernel
  have hrev : (Write.create.op ∅ 5 (sampleCall [1] 0)).header.revision = 1 := by decide +kernel
  have hread : Write.create.Readable ∅ (sampleCall [1] 0) := by
    refine ⟨by decide, fun d hd => ?_⟩
    rw [hrow] at hd
    cases hd
  have hanswers := ((read_your_writes_iff .create hcreate).1 (by decide)).mpr hread
  rw [hrev] at hanswers
  exact ⟨hanswers, (read_your_writes_iff .delete hdelete).2 rfl⟩

/-- A record was created and deleted. A `reset` or an `update` of the tombstone succeeds and
leaves it one, and a create returns the revision 2 of the tombstone for a record of revision 1. -/
theorem tombstone_not_read_back :
    ∃ db, Reaches LocalWrite.step (fun _ _ => True) ∅ db ∧
      (∃ f, (LocalData.reset db 7 (sampleCall [2] 0)).err = none ∧
        LocalData.get (LocalData.reset db 7 (sampleCall [2] 0)).db ⟨7, (sampleCall [] 0).data⟩ = .error f) ∧
      (∃ f, (LocalData.update db 7 (sampleCall [2] 2)).err = none ∧
        LocalData.get (LocalData.update db 7 (sampleCall [2] 2)).db ⟨7, (sampleCall [] 0).data⟩ = .error f) ∧
      (LocalData.create db 7 (sampleCall [2] 0)).err = none ∧
      (LocalData.create db 7 (sampleCall [2] 0)).header.revision = 2 ∧
      LocalData.get (LocalData.create db 7 (sampleCall [2] 0)).db ⟨7, (sampleCall [] 0).data⟩ =
        .ok ⟨[], [2], ⟨1, 0, 0, 7, 1, true, 0⟩⟩ := by
  let written : Db := (LocalData.create ∅ 5 (sampleCall [1] 0)).db
  refine ⟨(LocalData.delete written (sampleCall [] 0)).db, ?_,
    ⟨.dataDeleted 2, by decide +kernel, by decide +kernel⟩,
    ⟨.dataDeleted 2, by decide +kernel, by decide +kernel⟩,
    by decide +kernel, by decide +kernel, by decide +kernel⟩
  exact .tail (.single ⟨⟨.create, 5, sampleCall [1] 0⟩, trivial, rfl⟩)
    ⟨⟨.delete, 6, sampleCall [] 0⟩, trivial, rfl⟩

end Tarantula
