import Tarantula.LiveQuery
import Tarantula.Pages

/-! Reading the rows of a class page by page. -/

namespace Tarantula.LocalData

variable (filter : Bytes → Bytes → Bool)

/-- The filter is given the part of the key behind the class and the length. -/
def accepts (row : Bytes × Bytes) : Bool := filter (row.1.drop 12) row.2

def result (row : Bytes × Bytes) : Bytes × Bytes := (row.1.drop 12, row.2)

/-- The results of `count` queries, each with an offset that is larger by the page size. -/
def pagedQuery (db : Db) (q : Query) (size count : Nat) : List (Bytes × Bytes) :=
  (List.range count).flatMap fun k => query db filter { q with limit := size, offset := (k * size : Nat) }

variable {filter} {db : Db} {q : Query} {size count : Nat}

theorem query_eq_page (hs : 0 < size) (offset : Nat) :
    query db filter { q with limit := size, offset := offset } =
      (page (accepts filter) (classRows db q.factoryId q.classId) size offset).map result := by
  obtain ⟨n, rfl⟩ := Nat.exists_eq_add_of_lt hs
  have hlimit : queryLimit { q with limit := (0 + n + 1 : Nat), offset := offset } = n + 1 := by
    rw [queryLimit, if_neg (by dsimp only; omega)]
    dsimp only
    omega
  rw [query, hlimit, queryLoop_eq, List.nil_append, Int.toNat_natCast, Nat.zero_add]
  rfl

theorem pagedQuery_eq_pages (hs : 0 < size) : pagedQuery filter db q size count =
    (pages (accepts filter) (classRows db q.factoryId q.classId) size count).map result := by
  simp only [pagedQuery, query_eq_page hs, pages, List.map_flatMap]

theorem query_unlimited (hs : 0 < size) (hl : (classRows db q.factoryId q.classId).length ≤ size) :
    query db filter { q with limit := size, offset := 0 } =
      ((classRows db q.factoryId q.classId).filter (accepts filter)).map result := by
  have hall : page (accepts filter) (classRows db q.factoryId q.classId) size 0 =
      (classRows db q.factoryId q.classId).filter (accepts filter) := by
    rw [page, List.drop_zero, List.take_of_length_le (Nat.le_trans (List.length_filter_le ..) hl)]
  rw [← hall]
  exact query_eq_page hs 0

theorem classRows_ordered (f c : UInt32) : (classRows db f c).Pairwise fun a b => compare a.1 b.1 = .lt :=
  Std.ExtTreeMap.ordered_keys_toList.filter _

theorem mem_classRows_iff {f c : UInt32} {row : Bytes × Bytes} : row ∈ classRows db f c ↔
    db[row.1]? = some row.2 ∧ beBytes 4 f.toNat ++ beBytes 4 c.toNat <+: row.1 := by
  rw [classRows, List.mem_filter, Std.ExtTreeMap.mem_toList_iff_getElem?_eq_some, List.isPrefixOf_iff_prefix]

/-- One query without a limit returns the rows of the class that the filter accepts, each once and
in the order of their keys. The pages of a size do so exactly when what is accepted behind a
rejected row is in the same block of so many rows. -/
theorem paging_partitions_iff (db : Db) (filter : Bytes → Bytes → Bool) (q : Query) (hs : 1 ≤ size)
    (hl : (classRows db q.factoryId q.classId).length ≤ count * size) :
    let rows := classRows db q.factoryId q.classId
    let accepted := (rows.filter (accepts filter)).map result
    (∀ row, row ∈ rows ↔
      db[row.1]? = some row.2 ∧ beBytes 4 q.factoryId.toNat ++ beBytes 4 q.classId.toNat <+: row.1) ∧
    rows.Pairwise (fun a b => compare a.1 b.1 = .lt) ∧
    (∀ limit : Nat, 0 < limit → rows.length ≤ limit →
      query db filter { q with limit := limit, offset := 0 } = accepted) ∧
    (pagedQuery filter db q size count = accepted ↔ Aligned (accepts filter) size rows) := by
  intro rows accepted
  refine ⟨fun row => mem_classRows_iff, classRows_ordered _ _,
    fun limit hpos hlim => query_unlimited hpos hlim, ?_⟩
  rw [pagedQuery_eq_pages hs]
  constructor
  · intro heq
    have hlen := congrArg List.length heq
    rw [List.length_map, List.length_map] at hlen
    exact aligned_of_length hs hl hlen
  · intro h
    rw [pages_eq_filter hs hl h]

def sampleRows : List StoreEvent :=
  [([1], [9]), ([2], [0]), ([3], [9])].map fun (key, value) =>
    .write ⟨.create, 1, ⟨7, ⟨key, value, ⟨0, 1, 1, 0, 0, true, 0⟩⟩⟩⟩

/-- In pages of three rows the rejected row has its successor in its own block. -/
theorem paging_partitions_sample :
    ∃ db, Reaches StoreEvent.step (fun _ _ => True) ∅ db ∧
      pagedQuery (fun _ v => v == [9]) db ⟨"events", 1, 1, 0, 0⟩ 3 1 =
        [([1, 0, 0, 0, 0, 0, 0, 0, 1], [9]), ([3, 0, 0, 0, 0, 0, 0, 0, 1], [9])] := by
  obtain ⟨db, hdb, hlen, hacc, haligned⟩ := exists_reaches_of_checkedRun StoreEvent.step (fun _ _ => True)
    (fun db => (classRows db 1 1).length ≤ 1 * 3 ∧
      ((classRows db 1 1).filter (accepts fun _ v => v == [9])).map result =
        [([1, 0, 0, 0, 0, 0, 0, 0, 1], [9]), ([3, 0, 0, 0, 0, 0, 0, 0, 1], [9])] ∧
      Aligned (accepts fun _ v => v == [9]) 3 (classRows db 1 1)) ∅ sampleRows (by decide +kernel)
  refine ⟨db, hdb, ?_⟩
  obtain ⟨-, -, -, hiff⟩ := paging_partitions_iff db (fun _ v => v == [9]) ⟨"events", 1, 1, 0, 0⟩
    (show 1 ≤ 3 by decide) hlen
  exact (hiff.mpr haligned).trans hacc

/-- In pages of two rows the first page goes on into the second block, and the last row is returned
twice. -/
theorem paging_repeats_row :
    ∃ db, Reaches StoreEvent.step (fun _ _ => True) ∅ db ∧ (classRows db 1 1).length = 3 ∧
      query db (fun _ v => v == [9]) ⟨"events", 1, 1, 100, 0⟩ =
        [([1, 0, 0, 0, 0, 0, 0, 0, 1], [9]), ([3, 0, 0, 0, 0, 0, 0, 0, 1], [9])] ∧
      pagedQuery (fun _ v => v == [9]) db ⟨"events", 1, 1, 0, 0⟩ 2 2 =
        [([1, 0, 0, 0, 0, 0, 0, 0, 1], [9]), ([3, 0, 0, 0, 0, 0, 0, 0, 1], [9]),
          ([3, 0, 0, 0, 0, 0, 0, 0, 1], [9])] :=
  exists_reaches_of_checkedRun StoreEvent.step (fun _ _ => True)
    (fun db => (classRows db 1 1).length = 3 ∧
      query db (fun _ v => v == [9]) ⟨"events", 1, 1, 100, 0⟩ =
        [([1, 0, 0, 0, 0, 0, 0, 0, 1], [9]), ([3, 0, 0, 0, 0, 0, 0, 0, 1], [9])] ∧
      pagedQuery (fun _ v => v == [9]) db ⟨"events", 1, 1, 0, 0⟩ 2 2 =
        [([1, 0, 0, 0, 0, 0, 0, 0, 1], [9]), ([3, 0, 0, 0, 0, 0, 0, 0, 1], [9]),
          ([3, 0, 0, 0, 0, 0, 0, 0, 1], [9])])
    ∅ sampleRows (by decide +kernel)

end Tarantula.LocalData
