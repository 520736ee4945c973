import Tarantula.EventLists
import Tarantula.Lists
import Tarantula.RecordFrame

/-! What a query finds of the live records of a class. It scans the data rows, which do not
tell whether their record is live or at which revision, and cuts the keys of the records out
of the keys of the rows with the revision still behind them. -/

namespace Tarantula

namespace LocalData

def Live (db : Db) (factoryId classId : UInt32) (a : Address) : Prop :=
  a.factoryId = factoryId ∧ a.classId = classId ∧ ∃ d, a.row db = some d ∧ d.state ≠ dataStateDeleted

/-- The record of an index row, if it is live and of the class. -/
def liveRecord (factoryId classId : UInt32) (row : Bytes × Bytes) : Option Address :=
  match KeyIndex.importRow ⟨0, [], default⟩ row.1 row.2 compositKeyMax with
  | .error _ => none
  | .ok ki =>
    if ki.header.factoryId = factoryId ∧ ki.header.classId = classId ∧
        ki.header.state ≠ dataStateDeleted then
      some ⟨ki.ringPrefix, factoryId, classId, ki.key⟩
    else none

def liveRecords (db : Db) (factoryId classId : UInt32) : List Address :=
  (indexRows db).filterMap (liveRecord factoryId classId)

/-- One result for each of the records, with its key and the value that it has. -/
def OnePerRecord (db : Db) (records : List Address) (results : List (Bytes × Bytes)) : Prop :=
  ∃ l, l.Perm records ∧ List.Forall₂ (fun (a : Address) x => x.1 = a.key ∧
    ∃ d, a.row db = some d ∧ db[a.data d.revision]? = some x.2) l results

section Records

variable {db : Db} {f c : UInt32}

theorem liveRecord_row {a : Address} (hf : a.Fits) (d : Header) :
    liveRecord f c (a.index, rowBytes d) =
      if a.factoryId = f ∧ a.classId = c ∧ d.state ≠ dataStateDeleted then some a else none := by
  have hfit : 30 + a.key.length ≤ compositKeyMax := hf
  rw [liveRecord, KeyIndex.importRow_eq hf d (by decide), if_pos hfit]
  by_cases hlive : a.factoryId = f ∧ a.classId = c ∧ d.state ≠ dataStateDeleted
  · obtain ⟨rfl, rfl, hs⟩ := hlive
    simp [hs]
  · simp [hlive]

theorem mem_liveRecords (hrows : OnlyRows db) {a : Address} :
    a ∈ liveRecords db f c ↔ Live db f c a := by
  rw [liveRecords, List.mem_filterMap]
  constructor
  · rintro ⟨row, hmem, hrow⟩
    obtain ⟨a', d, hf, hget, rfl⟩ := index_of_mem_indexRows hrows hmem
    rw [liveRecord_row hf] at hrow
    split at hrow
    · next hlive =>
      obtain rfl := Option.some.inj hrow
      exact ⟨hlive.1, hlive.2.1, _, row_of_index hf hget, hlive.2.2⟩
    · cases hrow
  · rintro ⟨rfl, rfl, d, hrow, hlive⟩
    obtain ⟨hf, ev, hev, hdec⟩ := Address.row_eq_some_iff.mp hrow
    obtain ⟨-, d', rfl⟩ := hrows.index_row hev
    rw [decode_rowBytes, Option.some.injEq] at hdec
    subst hdec
    refine ⟨_, index_mem_indexRows hev, ?_⟩
    rw [liveRecord_row hf, if_pos ⟨rfl, rfl, hlive⟩]

theorem nodup_liveRecords (hrows : OnlyRows db) : (liveRecords db f c).Nodup := by
  have hdist : (indexRows db).Pairwise fun x y => ¬ compare x.1 y.1 = .eq :=
    Std.ExtTreeMap.distinct_keys_toList.filter _
  have hmem : (indexRows db).Pairwise fun x y => x ∈ indexRows db ∧ y ∈ indexRows db ∧ x.1 ≠ y.1 :=
    hdist.imp_of_mem fun hx hy hne => ⟨hx, hy, fun he => hne (Std.compare_eq_iff_eq.mpr he)⟩
  refine hmem.filterMap _ ?_
  rintro x y ⟨hx, hy, hne⟩ a ha b hb rfl
  obtain ⟨a₁, d₁, hf₁, -, rfl⟩ := index_of_mem_indexRows hrows hx
  obtain ⟨a₂, d₂, hf₂, -, rfl⟩ := index_of_mem_indexRows hrows hy
  rw [liveRecord_row hf₁] at ha
  rw [liveRecord_row hf₂] at hb
  split at ha
  · split at hb
    · rw [Option.some.inj ha, Option.some.inj hb] at hne
      exact hne rfl
    · cases hb
  · cases ha

/-- Every result that matches a record is longer than the key of the record: there are no
records with the longest key. -/
theorem longer_record {l : List Address} (hlive : ∀ a ∈ l, Live db f c a)
    (hall : List.Forall₂ (fun (a : Address) x => x.1 = a.key ∧
      ∃ d, a.row db = some d ∧ db[a.data d.revision]? = some x.2) l
      ((classRows db f c).map fun row => (row.1.drop 12, row.2))) {a : Address} (ha : a ∈ l) :
    ∃ b ∈ l, b.key.length = a.key.length + 8 := by
  obtain ⟨x, -, -, d, -, hv⟩ := forall₂_mem_left hall ha
  obtain ⟨hf, hc, -⟩ := hlive a ha
  have hmem := mem_classRows hv
  rw [hf, hc] at hmem
  have hres := List.mem_map_of_mem (f := fun row : Bytes × Bytes => (row.1.drop 12, row.2)) hmem
  obtain ⟨b, hb, hkey, -⟩ := forall₂_mem_left hall.flip hres
  refine ⟨b, hb, ?_⟩
  rw [← hkey, data_drop]
  simp

theorem no_records {l : List Address} (hlive : ∀ a ∈ l, Live db f c a)
    (hall : List.Forall₂ (fun (a : Address) x => x.1 = a.key ∧
      ∃ d, a.row db = some d ∧ db[a.data d.revision]? = some x.2) l
      ((classRows db f c).map fun row => (row.1.drop 12, row.2))) : l = [] := by
  by_contra hne
  obtain ⟨a, ha⟩ := List.exists_mem_of_ne_nil l hne
  have hlong : ∀ n : Nat, ∃ b ∈ l, n ≤ b.key.length := by
    intro n
    induction n with
    | zero => exact ⟨a, ha, Nat.zero_le _⟩
    | succ n ih =>
      obtain ⟨b, hb, hn⟩ := ih
      obtain ⟨b', hb', hlen⟩ := longer_record hlive hall hb
      exact ⟨b', hb', by omega⟩
  obtain ⟨b, hb, hn⟩ := hlong 500
  obtain ⟨-, -, d, hrow, -⟩ := hlive b hb
  have hfits : 30 + b.key.length ≤ 500 := Address.fits_of_row hrow
  omega

end Records

/-- The store has no row of the class, and no live record of it. -/
def Unused (db : Db) (factoryId classId : UInt32) : Prop :=
  classRows db factoryId classId = [] ∧ liveRecords db factoryId classId = []

/-- In every store that writes and handoffs build, a query with room for all live records of a
class returns them only if the class is not in use; if there is room for one more, it never
does otherwise. -/
theorem query_returns_live_iff {db : Db} (h : Reaches StoreEvent.step (fun _ _ => True) ∅ db)
    (topic : String) (f c : UInt32) :
    let results := fun limit => query db (fun _ _ => true) ⟨topic, f, c, limit, 0⟩
    ((liveRecords db f c).Nodup ∧ ∀ a, a ∈ liveRecords db f c ↔ Live db f c a) ∧
    ((∀ limit : Int, (liveRecords db f c).length ≤ limit →
      OnePerRecord db (liveRecords db f c) (results limit)) ↔ Unused db f c) ∧
    ∀ limit : Int, (liveRecords db f c).length < limit →
      (OnePerRecord db (liveRecords db f c) (results limit) ↔ Unused db f c) := by
  intro results
  have hrows := onlyRows_of_reaches h
  have hunused {limit : Int} (hu : Unused db f c) :
      OnePerRecord db (liveRecords db f c) (results limit) := by
    refine ⟨[], by rw [hu.2], ?_⟩
    have hnil : results limit = [] := by simp [results, query, hu.1, queryLoop]
    rw [hnil]
    exact .nil
  have hmore (limit : Int) (hl : (liveRecords db f c).length < limit)
      (hone : OnePerRecord db (liveRecords db f c) (results limit)) : Unused db f c := by
    obtain ⟨l, hperm, hall⟩ := hone
    obtain ⟨n, rfl⟩ : ∃ n : Nat, limit = n + 1 := ⟨(limit - 1).toNat, by omega⟩
    have hlimit : queryLimit ⟨topic, f, c, n + 1, 0⟩ = n + 1 := if_neg (by dsimp only; omega)
    have hres : results (n + 1) =
        ((classRows db f c).take (n + 1)).map fun row => (row.1.drop 12, row.2) := by
      simp only [results, query, hlimit]
      rw [queryLoop_take _ (le_refl _), List.nil_append]
    -- fewer results than the limit are all rows there are
    have hlen := hall.length_eq
    rw [hres, List.length_map, List.length_take, hperm.length_eq] at hlen
    rw [hres, List.take_of_length_le (by omega)] at hall
    have hl := no_records (fun a ha => (mem_liveRecords hrows).mp (hperm.mem_iff.mp ha)) hall
    subst hl
    have hrecords : liveRecords db f c = [] := hperm.symm.eq_nil
    refine ⟨?_, hrecords⟩
    rw [hrecords, List.length_nil] at hlen
    exact List.length_eq_zero_iff.mp (by omega)
  refine ⟨⟨nodup_liveRecords hrows, fun a => mem_liveRecords hrows⟩,
    ⟨fun hall => ?_, fun hu _ _ => hunused hu⟩, fun limit hl => ⟨hmore limit hl, hunused⟩⟩
  exact hmore ((liveRecords db f c).length + 1) (by omega) (hall _ (by omega))

def sampleQueried : StoreEvent := .write ⟨.create, 1, ⟨7, ⟨[107], [9], ⟨0, 1, 1, 0, 0, true, 0⟩⟩⟩⟩

/-- The class 2 of a store that has a record of the class 1. -/
theorem query_returns_live_iff_unused :
    ∃ db, Reaches StoreEvent.step (fun _ _ => True) ∅ db ∧ Unused db 1 2 ∧
      OnePerRecord db (liveRecords db 1 2) (query db (fun _ _ => true) ⟨"events", 1, 2, 10, 0⟩) := by
  obtain ⟨db, hdb, hrows, hlive⟩ := exists_reaches_of_checkedRun StoreEvent.step (fun _ _ => True)
    (fun db => classRows db 1 2 = [] ∧ liveRecords db 1 2 = []) ∅ [sampleQueried] (by decide +kernel)
  refine ⟨db, hdb, ⟨hrows, hlive⟩, ?_⟩
  exact ((query_returns_live_iff hdb "events" 1 2).2.2 10 (by rw [hlive]; decide)).mpr ⟨hrows, hlive⟩

/-- The key of the one record of the class comes with eight bytes more. -/
theorem query_returns_other_key :
    ∃ db, Reaches StoreEvent.step (fun _ _ => True) ∅ db ∧ liveRecords db 1 1 = [⟨7, 1, 1, [107]⟩] ∧
      query db (fun _ _ => true) ⟨"events", 1, 1, 10, 0⟩ = [([107, 0, 0, 0, 0, 0, 0, 0, 1], [9])] :=
  exists_reaches_of_checkedRun StoreEvent.step (fun _ _ => True)
    (fun db => liveRecords db 1 1 = [⟨7, 1, 1, [107]⟩] ∧
      query db (fun _ _ => true) ⟨"events", 1, 1, 10, 0⟩ = [([107, 0, 0, 0, 0, 0, 0, 0, 1], [9])])
    ∅ [sampleQueried] (by decide +kernel)

end LocalData

end Tarantula
