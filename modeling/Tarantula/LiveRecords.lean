import Tarantula.HandoffRecords

/-! The records of a store that is written under any prefixes, one for each class and
key. Beside the store stands the value of the last write to each record that succeeded:
a live index row has its data row, and the data row has that value. -/

namespace Tarantula

/-- A store, and for each record the value that was last written; a delete leaves none. -/
structure Ledger where
  db : Db
  last : Address → Option Bytes

namespace Ledger

def empty : Ledger := ⟨∅, fun _ => none⟩

def step (s : Ledger) (e : LocalWrite) : Option Ledger :=
  let d := e.write.op s.db e.now e.sd
  some ⟨d.db, if d.err = none then
    Function.update s.last e.sd.address (e.write.written e.sd.data.value) else s.last⟩

def Under (p : UInt32 → UInt32 → Bytes → UInt32) (_ : Ledger) (e : LocalWrite) : Prop :=
  e.sd.ringPrefix = p e.sd.data.header.factoryId e.sd.data.header.classId e.sd.data.key

instance (p : UInt32 → UInt32 → Bytes → UInt32) (s : Ledger) (e : LocalWrite) :
    Decidable (Under p s e) := inferInstanceAs (Decidable (_ = _))

/-- The rows are placed by `p`, with the values that were last written. -/
def Kept (p : UInt32 → UInt32 → Bytes → UInt32) (s : Ledger) : Prop :=
  Placed p (fun a value => s.last a = some value) s.db

variable {p : UInt32 → UInt32 → Bytes → UInt32} {s t : Ledger}

/-- A write changes nothing, or it rewrites its record and is the last write to it. -/
theorem step_cases {e : LocalWrite} (he : s.step e = some t) :
    t = s ∨ ∃ d, Write.Rewrites e.sd.address d (e.write.written e.sd.data.value) s.db t.db ∧
      (d.state ≠ dataStateDeleted → e.write.written e.sd.data.value = some e.sd.data.value ∧
        d.size = UInt32.ofNat e.sd.data.value.length) ∧
      t.last = Function.update s.last e.sd.address (e.write.written e.sd.data.value) := by
  obtain rfl := Option.some.inj he
  cases herr : (e.write.op s.db e.now e.sd).err with
  | some f =>
    have hne : (e.write.op s.db e.now e.sd).err ≠ none := by simp [herr]
    have hdb := e.write.op_failed e.now hne
    exact .inl (by simp [hdb])
  | none =>
    obtain ⟨d, hr, hlive⟩ := Write.op_rewrites herr
    exact .inr ⟨d, hr, hlive, by simp⟩

theorem Kept.step {e : LocalWrite} (hs : Kept p s) (hp : Under p s e) (he : s.step e = some t) :
    Kept p t := by
  rcases step_cases he with rfl | ⟨d, hr, hlive, hlast⟩
  · exact hs
  · refine Placed.rewrites hs (a := e.sd.address) hp hr (fun hst => ?_) fun a value hne hl => ?_
    · obtain ⟨hx, hv⟩ := hlive hst
      exact ⟨e.sd.data.value, by rw [hlast, Function.update_self, hx], hx, hv⟩
    · rw [hlast, Function.update_of_ne (Ne.symm hne), hl]

theorem kept_of_reaches (h : Reaches step (Under p) empty s) : Kept p s :=
  h.invariant Placed.empty fun _ _ _ hs hp he => hs.step hp he

/-- A live record of any store that the four writes build has its data row, at the revision
and with the size that the index row shows, and with the value last written, so that `get`
answers with that value. The state that a create carries does not matter. -/
theorem live_index_row_complete (h : Reaches step (Under p) empty s) {row : Bytes × Bytes}
    (hrow : row ∈ LocalData.indexRows s.db) :
    ∃ (a : Address) (d : Header), row = (a.index, rowBytes d) ∧
      (d.state ≠ dataStateDeleted → ∃ value, s.last a = some value ∧
        s.db[a.data d.revision]? = some value ∧ d.size.toNat = value.length % 2 ^ 32 ∧
        ∀ gd : Request, gd.address = a → LocalData.get s.db gd =
          .ok ⟨[], value, ⟨d.revision, 0, 0, d.timestamp, d.size, d.updatable, 0⟩⟩) := by
  have hs := kept_of_reaches h
  obtain ⟨a, d, hf, hget, rfl⟩ := LocalData.index_of_mem_indexRows hs.rows hrow
  refine ⟨a, d, rfl, fun hst => ?_⟩
  obtain ⟨value, hlast, hv, hsize⟩ := hs.live a d hget hst
  refine ⟨value, hlast, hv, by rw [hsize, UInt32.toNat_ofNat'], fun gd ha => ?_⟩
  subst ha
  exact LocalData.get_of_live hf hget hst hv

def samplePrefix (_ _ : UInt32) (key : Bytes) : UInt32 := if key = [107] then Murmur3.sum32 key else 7

def sampleWrites : List LocalWrite :=
  let at_ (key value : Bytes) (rev : UInt64) : SetData :=
    ⟨samplePrefix 1 1 key, ⟨key, value, ⟨rev, 1, 1, 0, 0, true, 0⟩⟩⟩
  [⟨.create, 1, at_ [107] [1] 0⟩, ⟨.update, 2, at_ [107] [2, 2] 1⟩, ⟨.delete, 3, at_ [107] [] 0⟩,
    ⟨.create, 4, at_ [107] [4] 0⟩, ⟨.create, 5, at_ [108] [5] 0⟩, ⟨.reset, 6, at_ [107] [6, 6, 6] 0⟩]

def sampleStored : Bytes × Bytes :=
  let a : Address := ⟨Murmur3.sum32 [107], 1, 1, [107]⟩
  (a.index, rowBytes ⟨1, 1, 1, 6, 3, true, 0⟩)

theorem live_index_row_complete_sample :
    ∃ s, Reaches step (Under samplePrefix) empty s ∧ sampleStored ∈ LocalData.indexRows s.db ∧
      ∃ (a : Address) (d : Header), sampleStored = (a.index, rowBytes d) ∧
        (d.state ≠ dataStateDeleted → ∃ value, s.last a = some value ∧
          s.db[a.data d.revision]? = some value ∧ d.size.toNat = value.length % 2 ^ 32 ∧
          ∀ gd : Request, gd.address = a → LocalData.get s.db gd =
            .ok ⟨[], value, ⟨d.revision, 0, 0, d.timestamp, d.size, d.updatable, 0⟩⟩) := by
  obtain ⟨s, hs, hrow⟩ := exists_reaches_of_checkedRun step (Under samplePrefix)
    (fun s => s.db[sampleStored.1]? = some sampleStored.2) empty sampleWrites (by decide +kernel)
  have hmem := LocalData.index_mem_indexRows (a := ⟨Murmur3.sum32 [107], 1, 1, [107]⟩) hrow
  exact ⟨s, hs, hmem, live_index_row_complete hs hmem⟩

end Ledger

end Tarantula
