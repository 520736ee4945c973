import Tarantula.LiveRecords
import Tarantula.RangeSync

/-! What `pull` streams: the live records of a cyclic interval of prefixes, each once, in
batches. The buffer with which it imports an index row is smaller than the one with which a
create writes it, so the records with long keys are left out. -/

namespace Tarantula

namespace LocalData

/-- The half-open cyclic interval from `lo` to `hi`. -/
def Within (lo hi p : UInt32) : Prop := if lo < hi then lo ≤ p ∧ p < hi else lo ≤ p ∨ p < hi

theorem inRange_iff (lo hi p : UInt32) : inRange lo hi p = true ↔ Within lo hi p := by
  by_cases h : lo < hi <;> simp [inRange, Within, h]

/-- The responses hold each live record of the interval once, as it is, none of the live
records outside, and not more than a batch each. -/
structure Streams (db : Db) (lo hi : UInt32) (batches : List (List Data)) : Prop where
  sizes : ∀ batch ∈ batches, batch.length ≤ pullBatchSize
  inside : ∀ (a : Address) d, a.row db = some d → d.state ≠ dataStateDeleted → Within lo hi a.ringPrefix →
    ∃ value, db[a.data d.revision]? = some value ∧
      (batches.flatten.filter fun x => x.About a) = [a.message d value]
  outside : ∀ (a : Address) d, a.row db = some d → d.state ≠ dataStateDeleted →
    ¬ Within lo hi a.ringPrefix → ∀ x ∈ batches.flatten, ¬ x.About a

theorem pullLoop_sizes {db : Db} {lo hi : UInt32} {rows : List (Bytes × Bytes)}
    {batches all : List (List Data)} {data : List Data}
    (hb : ∀ batch ∈ batches, batch.length ≤ pullBatchSize) (hd : data.length < pullBatchSize)
    (h : pullLoop db lo hi rows batches data = some all) : ∀ batch ∈ all, batch.length ≤ pullBatchSize := by
  induction rows generalizing batches data with
  | nil =>
    obtain rfl := Option.some.inj h
    intro batch hmem
    split at hmem
    · rcases List.mem_append.mp hmem with hmem | hmem
      · exact hb batch hmem
      · obtain rfl := List.mem_singleton.mp hmem
        omega
    · exact hb batch hmem
  | cons row rows ih =>
    cases hr : pullRow db lo hi row with
    | none => simp [pullLoop, hr] at h
    | some o =>
      cases o with
      | none =>
        simp only [pullLoop, hr] at h
        exact ih hb hd h
      | some x =>
        simp only [pullLoop, hr] at h
        have hlen : (data ++ [x]).length = data.length + 1 := by simp
        by_cases hfull : (data ++ [x]).length = pullBatchSize
        · rw [if_pos hfull] at h
          refine ih (fun batch hmem => ?_) (by decide) h
          rcases List.mem_append.mp hmem with hmem | hmem
          · exact hb batch hmem
          · obtain rfl := List.mem_singleton.mp hmem
            omega
        · rw [if_neg hfull] at h
          exact ih hb (by omega) h

variable {p : UInt32 → UInt32 → Bytes → UInt32} {s : Ledger} {lo hi : UInt32}

/-- The messages about a record are those for its own index row. -/
theorem pull_about (hs : s.Kept p) {a : Address} {d : Header} (hrow : s.db[a.index]? = some (rowBytes d))
    {o : Option Data} (ho : pullRow s.db lo hi (a.index, rowBytes d) = some o)
    {all : List (List Data)} (hall : pull s.db lo hi = some all) :
    (all.flatten.filter fun x => x.About a) = o.toList := by
  obtain ⟨all', L₁, L₂, hall', hflat, h₁, h₂⟩ := pull_split hs.rows hrow
    (fun a' v hv hdata => Address.eq_of_data (hs.placed a _ hrow) (hs.placed a' v hv) hdata) ho
  obtain rfl := Option.some.inj (hall'.symm.trans hall)
  have hnone : ∀ {L : List Data}, (∀ x ∈ L, x.Other a) → (L.filter fun x => x.About a) = [] := by
    intro L hL
    refine List.filter_eq_nil_iff.mpr fun x hx => ?_
    rw [decide_eq_true_eq]
    exact hL x hx
  rw [hflat, List.filter_append, List.filter_append, hnone h₁, hnone h₂, List.nil_append, List.append_nil]
  cases o with
  | none => rfl
  | some x =>
    obtain ⟨hfid, hcid, hkey⟩ := pullRow_ids (hs.rows.index_row hrow).1 ho
    have habout : x.About a := ⟨hfid.symm, hcid.symm, hkey.symm⟩
    simp [habout]

theorem live_rows (hs : s.Kept p) {a : Address} {d : Header} (hrow : a.row s.db = some d)
    (hlive : d.state ≠ dataStateDeleted) :
    a.Fits ∧ ∃ d', s.db[a.index]? = some (rowBytes d') ∧ d = Header.withRow default d' ∧
      ∃ value, s.db[a.data d.revision]? = some value := by
  obtain ⟨hf, ev, hev, hdec⟩ := Address.row_eq_some_iff.mp hrow
  obtain ⟨-, d', rfl⟩ := hs.rows.index_row hev
  rw [decode_rowBytes, Option.some.injEq] at hdec
  subst hdec
  obtain ⟨value, -, hv, -⟩ := hs.live a d' hev hlive
  exact ⟨hf, d', hev, rfl, value, hv⟩

/-- From every store with one prefix for each record, `pull` streams the interval exactly if
the keys of its live records fit the buffer of the import. -/
theorem pull_streams_iff (h : Reaches Ledger.step (Ledger.Under p) Ledger.empty s) (lo hi : UInt32) :
    ∃ batches, pull s.db lo hi = some batches ∧
      (Streams s.db lo hi batches ↔ ∀ (a : Address) d, a.row s.db = some d → d.state ≠ dataStateDeleted →
        Within lo hi a.ringPrefix → 30 + a.key.length ≤ pullBufferSize) := by
  have hs := Ledger.kept_of_reaches h
  obtain ⟨batches, hb, -⟩ := pull_flatten hs.rows lo hi
  have hsent {a : Address} {d : Header} (hrow : a.row s.db = some d) (hlive : d.state ≠ dataStateDeleted)
      (hin : Within lo hi a.ringPrefix) : ∃ value, s.db[a.data d.revision]? = some value ∧
        (batches.flatten.filter fun x => x.About a) =
          if 30 + a.key.length ≤ pullBufferSize then [a.message d value] else [] := by
    obtain ⟨hf, d', hget, rfl, value, hv⟩ := live_rows hs hrow hlive
    have ho := pullRow_live hf hlive ((inRange_iff _ _ _).mpr hin) hv
    refine ⟨value, hv, (pull_about hs hget ho hb).trans ?_⟩
    by_cases hfit : 30 + a.key.length ≤ pullBufferSize
    · rw [if_pos hfit, if_pos hfit]
      rfl
    · rw [if_neg hfit, if_neg hfit]
      rfl
  refine ⟨batches, hb, fun hstr a d hrow hlive hin => ?_, fun hfit => ⟨?_, ?_, ?_⟩⟩
  · obtain ⟨value, -, hone⟩ := hstr.inside a d hrow hlive hin
    obtain ⟨value', -, hsame⟩ := hsent hrow hlive hin
    by_contra hlong
    rw [hone, if_neg hlong] at hsame
    cases hsame
  · exact pullLoop_sizes (fun _ h => absurd h List.not_mem_nil) (by decide) hb
  · intro a d hrow hlive hin
    obtain ⟨value, hv, hone⟩ := hsent hrow hlive hin
    exact ⟨value, hv, by rw [hone, if_pos (hfit a d hrow hlive hin)]⟩
  · intro a d hrow hlive hout x hx habout
    obtain ⟨hf, d', hget, rfl, -⟩ := live_rows hs hrow hlive
    have hnot : ¬ inRange lo hi a.ringPrefix = true := fun h => hout ((inRange_iff _ _ _).mp h)
    have hst : d'.state ≠ dataStateDeleted := hlive
    have ho : pullRow s.db lo hi (a.index, rowBytes d') = some none := by
      rw [pullRow_eq hf]
      simp [hst, hnot]
    have hnone := pull_about hs hget ho hb
    have hmem : x ∈ batches.flatten.filter fun x => x.About a :=
      List.mem_filter.mpr ⟨hx, decide_eq_true habout⟩
    rw [hnone] at hmem
    cases hmem

def samplePulled (key : Bytes) : LocalWrite := ⟨.create, 1, ⟨7, ⟨key, [9], ⟨0, 1, 1, 0, 0, true, 0⟩⟩⟩⟩

theorem pull_streams_iff_short_key :
    ∃ s, Reaches Ledger.step (Ledger.Under fun _ _ _ => 7) Ledger.empty s ∧
      pull s.db 5 8 = some [[⟨[107], [9], ⟨1, 1, 1, 1, 0, true, 0⟩⟩]] ∧
      Streams s.db 5 8 [[⟨[107], [9], ⟨1, 1, 1, 1, 0, true, 0⟩⟩]] := by
  obtain ⟨s, hs, hpull, hkeys⟩ := exists_reaches_of_checkedRun Ledger.step (Ledger.Under fun _ _ _ => 7)
    (fun s => pull s.db 5 8 = some [[⟨[107], [9], ⟨1, 1, 1, 1, 0, true, 0⟩⟩]] ∧
      ∀ k ∈ s.db.keys, k.length ≤ pullBufferSize) Ledger.empty
    [samplePulled [107]] (by decide +kernel)
  obtain ⟨batches, hb, hiff⟩ := pull_streams_iff hs 5 8
  obtain rfl := Option.some.inj (hb.symm.trans hpull)
  refine ⟨s, hs, hpull, hiff.mpr fun a d hrow _ _ => ?_⟩
  obtain ⟨-, ev, hev, -⟩ := Address.row_eq_some_iff.mp hrow
  have hlen : a.index.length = 30 + a.key.length := KeyIndex.length_indexBytes ..
  rw [← hlen]
  exact hkeys _ (Std.ExtTreeMap.mem_keys.mpr (ExtMap.mem_of_getElem? hev))

/-- A record with a key of 271 bytes, which a create admits: `get` finds it, `pull` sends
nothing. -/
theorem pull_loses_long_key :
    ∃ s, Reaches Ledger.step (Ledger.Under fun _ _ _ => 7) Ledger.empty s ∧
      get s.db ⟨7, (samplePulled (List.replicate 271 107)).sd.data⟩ =
        .ok ⟨[], [9], ⟨1, 0, 0, 1, 1, true, 0⟩⟩ ∧
      inRange 5 8 7 = true ∧ pull s.db 5 8 = some [] :=
  exists_reaches_of_checkedRun Ledger.step (Ledger.Under fun _ _ _ => 7)
    (fun s => get s.db ⟨7, (samplePulled (List.replicate 271 107)).sd.data⟩ =
        .ok ⟨[], [9], ⟨1, 0, 0, 1, 1, true, 0⟩⟩ ∧
      inRange 5 8 7 = true ∧ pull s.db 5 8 = some []) Ledger.empty
    [samplePulled (List.replicate 271 107)] (by decide +kernel)

end LocalData

end Tarantula
