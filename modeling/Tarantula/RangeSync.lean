import Mathlib.Order.Nat
import Tarantula.HandoffRecords
import Tarantula.Newest

/-! What the responses of a range sync make of a store, in whatever order, split and number
they arrive. The index row of a record is a register that keeps the highest revision, but
only the one under the prefix 0 is written. -/

namespace Tarantula

/-- The message is about the record at `a`, whatever the prefix. -/
def Data.About (a : Address) (d : Data) : Prop :=
  a.factoryId = d.header.factoryId ∧ a.classId = d.header.classId ∧ a.key = d.key

instance (a : Address) (d : Data) : Decidable (d.About a) := inferInstanceAs (Decidable (_ ∧ _ ∧ _))

/-- Messages of one record and revision are the same, and the same as what the store has at
this revision. -/
structure Coherent (db : Db) (L : List Data) : Prop where
  entries : ∀ d ∈ L, ∀ e ∈ L, d.address = e.address → d.header.revision = e.header.revision → d = e
  stored : ∀ d ∈ L, ∀ a h, d.About a → a.row db = some h → h.revision = d.header.revision →
    h = Header.withRow default d.header ∧
      (h.state ≠ dataStateDeleted → db[a.data h.revision]? = some d.value)

def Among (a : Address) (db : Db) (L : List Data) (h : Header) : Prop :=
  a.row db = some h ∨ ∃ d ∈ L, d.About a ∧ h = Header.withRow default d.header

/-- The index row at `a` in `db'` is one of the highest revision that `db` and the messages have. -/
def Highest (a : Address) (db : Db) (L : List Data) (db' : Db) : Prop :=
  (∀ h, Among a db L h → ∃ h', a.row db' = some h' ∧ h.revision ≤ h'.revision) ∧
    ∀ h, a.row db' = some h → Among a db L h

theorem Data.About.address {a : Address} {d : Data} (hp : a.ringPrefix = 0) (h : d.About a) :
    d.address = a := by
  cases a
  obtain ⟨rfl, rfl, rfl⟩ := h
  cases hp
  rfl

theorem Data.About.same_address {a : Address} {d e : Data} (hd : d.About a) (he : e.About a) :
    d.address = e.address := by
  rw [Data.address, Data.address, ← hd.1, ← hd.2.1, ← hd.2.2, ← he.1, ← he.2.1, ← he.2.2]

theorem Data.about_address (d : Data) : d.About d.address := ⟨rfl, rfl, rfl⟩

theorem Address.row_eq_some_iff {a : Address} {db : Db} {h : Header} :
    a.row db = some h ↔ a.Fits ∧ ∃ ev, db[a.index]? = some ev ∧ KeyIndex.decode ev = some h := by
  by_cases hf : a.Fits
  · rw [row, if_pos hf, Option.bind_eq_some_iff]
    exact ⟨fun h => ⟨hf, h⟩, fun h => h.2⟩
  · rw [row, if_neg hf]
    exact ⟨fun h => (by cases h), fun h => absurd h.1 hf⟩

theorem Address.row_congr {a : Address} {db db' : Db} (h : db[a.index]? = db'[a.index]?) :
    a.row db = a.row db' := by
  rw [row, row, h]

namespace LocalData

variable {db : Db} {d : Data} {L L' : List Data} {a : Address}

/-- The index row of a message is a register that keeps the highest revision. -/
theorem setRow_keeps (db : Db) (hf : d.address.Fits) :
    (setRow db d)[d.address.index]? = Newest.keep rowRank db[d.address.index]? (rowBytes d.header) := by
  rcases setRow_cases db hf with ⟨hlt, x, -, hr⟩ | ⟨⟨ev, hev, hle⟩, he⟩
  · rw [hr.index, if_pos rfl]
    cases hev : db[d.address.index]? with
    | none => rfl
    | some ev => rw [Newest.keep, if_pos (hlt ev hev)]
  · rw [he, Option.mem_def.mp hev, Newest.keep, if_neg (not_lt.mpr hle)]

def offers (a : Address) (L : List Data) : List Bytes :=
  (L.filter fun d => d.address = a).map fun d => rowBytes d.header

theorem mem_offers {x : Bytes} : x ∈ offers a L ↔ ∃ d ∈ L, d.address = a ∧ rowBytes d.header = x := by
  simp [offers, and_assoc]

theorem foldl_setRow_keeps (hf : a.Fits) (L : List Data) (db : Db) :
    (L.foldl setRow db)[a.index]? = (offers a L).foldl (Newest.keep rowRank) db[a.index]? := by
  induction L generalizing db with
  | nil => rfl
  | cons d L ih =>
    rw [List.foldl_cons, ih]
    by_cases hd : d.address = a
    · have hoffers : offers a (d :: L) = rowBytes d.header :: offers a L := by simp [offers, hd]
      subst hd
      rw [hoffers, List.foldl_cons, setRow_keeps db hf]
    · have hoffers : offers a (d :: L) = offers a L := by simp [offers, hd]
      have hrow : (setRow db d)[a.index]? = db[a.index]? :=
        setRow_other (fun _ he => hd (Address.index_inj he))
          (fun hfd he => Address.index_ne_data hfd a _ he.symm)
      rw [hoffers, hrow]

end LocalData

namespace Coherent

open LocalData

variable {db : Db} {L L' : List Data} {a : Address}

theorem offers_inj (hc : Coherent db L) :
    ∀ x ∈ offers a L, ∀ y ∈ offers a L, rowRank x = rowRank y → x = y := by
  intro x hx y hy hxy
  obtain ⟨d, hd, hda, rfl⟩ := mem_offers.mp hx
  obtain ⟨e, he, hea, rfl⟩ := mem_offers.mp hy
  rw [rowRank_rowBytes, rowRank_rowBytes] at hxy
  rw [hc.entries d hd e he (hda.trans hea.symm) (UInt64.toNat_inj.mp hxy)]

theorem eq_of_about (hc : Coherent db L) {d e : Data} (hd : d ∈ L) (he : e ∈ L) (hda : d.About a)
    (hea : e.About a) (hrev : d.header.revision = e.header.revision) : d = e :=
  hc.entries d hd e he (hda.same_address hea) hrev

theorem rewrites (hc : Coherent db L) {e : Data} (he : e ∈ L) {x : Option Bytes} {db' : Db}
    (hx : e.header.state ≠ dataStateDeleted → x = some e.value)
    (hr : Write.Rewrites e.address e.header x db db') : Coherent db' L := by
  refine ⟨hc.entries, fun d hd a h hda hrow hrev => ?_⟩
  by_cases ha : e.address = a
  · subst ha
    rw [hr.row, Option.some.injEq] at hrow
    subst hrow
    obtain rfl := hc.eq_of_about hd he hda e.about_address hrev.symm
    refine ⟨rfl, fun hl => ?_⟩
    rw [← hx hl]
    exact (hr.get _).trans (if_pos rfl)
  · have hsame : a.row db' = a.row db := Address.row_congr (by rw [hr.index, if_neg ha])
    rw [hsame] at hrow
    obtain ⟨hh, hdata⟩ := hc.stored d hd a h hda hrow hrev
    refine ⟨hh, fun hl => ?_⟩
    rw [hr.get]
    by_cases hk : e.address.data e.header.revision = a.data h.revision
    · -- the data row is shared with the record under the prefix 0
      obtain ⟨hfid, hcid, hkey, hrev'⟩ := Address.data_inj hk
      obtain rfl := hc.eq_of_about hd he hda ⟨hfid.symm, hcid.symm, hkey.symm⟩ (hrev.symm.trans hrev'.symm)
      rw [if_pos hk, hx]
      rwa [hh] at hl
    · rw [if_neg hk, if_neg (Address.index_ne_data (Address.fits_of_row hrow) _ _)]
      exact hdata hl

theorem setRow (hc : Coherent db L) {e : Data} (he : e ∈ L) : Coherent (setRow db e) L := by
  by_cases hf : e.address.Fits
  · rcases setRow_cases db hf with ⟨-, x, hx, hr⟩ | ⟨-, hdb⟩
    · exact hc.rewrites he hx hr
    · rw [hdb]
      exact hc
  · rw [setRow_oversize db hf]
    exact hc

theorem foldl (hc : Coherent db L) {M : List Data} (hM : ∀ e ∈ M, e ∈ L) :
    Coherent (M.foldl LocalData.setRow db) L := by
  induction M generalizing db with
  | nil => exact hc
  | cons e M ih =>
    rw [List.foldl_cons]
    exact ih (hc.setRow (hM e List.mem_cons_self)) fun e he => hM e (List.mem_cons_of_mem _ he)

theorem index_congr (hc : Coherent db L) (hmem : ∀ d, d ∈ L ↔ d ∈ L') (a : Address) :
    (L.foldl LocalData.setRow db)[a.index]? = (L'.foldl LocalData.setRow db)[a.index]? := by
  by_cases hf : a.Fits
  · rw [foldl_setRow_keeps hf, foldl_setRow_keeps hf]
    refine Newest.foldl_keep_congr (fun x => ?_) hc.offers_inj _
    simp only [mem_offers, hmem]
  · have ha : ¬ (a.ringPrefix = 0 ∧ a.Fits) := fun h => hf h.2
    rw [foldl_setRow_untouched ha, foldl_setRow_untouched ha]

/-- So is the data row to which the index row of a live record leads: it is the value of the
message of this revision, and no message touches it if there is none. -/
theorem data_congr (hc : Coherent db L) (hmem : ∀ d, d ∈ L ↔ d ∈ L') {h : Header}
    (hrow : a.row (L.foldl LocalData.setRow db) = some h) (hl : h.state ≠ dataStateDeleted) :
    (L.foldl LocalData.setRow db)[a.data h.revision]? =
    (L'.foldl LocalData.setRow db)[a.data h.revision]? := by
  have hrow' : a.row (L'.foldl LocalData.setRow db) = some h := by
    rw [← hrow]
    exact Address.row_congr (hc.index_congr hmem a).symm
  by_cases hd : ∃ d ∈ L, d.About a ∧ h.revision = d.header.revision
  · obtain ⟨d, hd, hda, hrev⟩ := hd
    have h₁ := (hc.foldl fun e he => he).stored d hd a h hda hrow hrev
    have h₂ := (hc.foldl fun e he => (hmem e).mpr he).stored d hd a h hda hrow' hrev
    rw [h₁.2 hl, h₂.2 hl]
  · have hother : ∀ d ∈ L, d.address.Fits →
        d.address.index ≠ a.data h.revision ∧ d.address.data d.header.revision ≠ a.data h.revision := by
      refine fun d hdL hf => ⟨Address.index_ne_data (Address.fits_of_row hrow) _ _, fun he => hd ?_⟩
      obtain ⟨hfid, hcid, hkey, hrev⟩ := Address.data_inj he
      exact ⟨d, hdL, ⟨hfid.symm, hcid.symm, hkey.symm⟩, hrev.symm⟩
    rw [foldl_setRow_other hother, foldl_setRow_other fun d hd => hother d ((hmem d).mpr hd)]

end Coherent

namespace LocalData

variable {db db' : Db} {L : List Data} {a : Address}

theorem get_congr {gd : Request} (hi : db[gd.address.index]? = db'[gd.address.index]?)
    (hd : ∀ h, gd.address.row db = some h → h.state ≠ dataStateDeleted →
      db[gd.address.data h.revision]? = db'[gd.address.data h.revision]?) : get db gd = get db' gd := by
  by_cases hf : gd.address.Fits
  · simp only [get, compositKey_request, if_pos hf, ← hi]
    cases hev : db[gd.address.index]? with
    | none => rfl
    | some ev =>
      rcases KeyIndex.val_cases ev with ⟨h, hdec, hval⟩ | ⟨-, hval⟩
      · have hk : dataKey gd.data.key (gd.data.header.withRow h) = .ok (gd.address.data h.revision) :=
          dataKey_eq ⟨gd.ringPrefix, gd.data⟩ ⟨rfl, rfl⟩ hf
        have hst : (gd.data.header.withRow h).state = h.state := rfl
        simp only [hval, hk, hst]
        by_cases hs : h.state = dataStateDeleted
        · rw [if_pos hs, if_pos hs]
        · rw [if_neg hs, if_neg hs, hd h (Address.row_eq_some_iff.mpr ⟨hf, ev, hev, hdec⟩) hs]
      · obtain ⟨h, hv⟩ : ∃ h, KeyIndex.val gd.data.header ev = (h, false) := ⟨_, Prod.ext rfl (hval _)⟩
        simp only [hv]
  · simp only [get, compositKey_request, if_neg hf]

/-- The header that the messages leave at an address that `set` writes. -/
theorem row_settled (hp : a.ringPrefix = 0) (hf : a.Fits) (L : List Data) (db : Db) :
    ((L.foldl setRow db)[a.index]? = db[a.index]? ∧
      ∀ d ∈ L, d.About a → ∃ ev ∈ db[a.index]?, d.header.revision.toNat ≤ rowRank ev) ∨
    ∃ d ∈ L, d.About a ∧ a.row (L.foldl setRow db) = some (Header.withRow default d.header) ∧
      (∀ ev ∈ db[a.index]?, rowRank ev < d.header.revision.toNat) ∧
      ∀ e ∈ L, e.About a → e.header.revision ≤ d.header.revision := by
  have hs := Newest.settled_foldl rowRank db[a.index]? (offers a L)
  rw [← foldl_setRow_keeps hf] at hs
  rcases hs with ⟨he, hle⟩ | ⟨x, hx, he, habove, hle⟩
  · refine .inl ⟨he, fun d hd hda => ?_⟩
    rw [← rowRank_rowBytes]
    exact hle _ (mem_offers.mpr ⟨d, hd, hda.address hp, rfl⟩)
  · obtain ⟨d, hd, rfl, rfl⟩ := mem_offers.mp hx
    refine .inr ⟨d, hd, d.about_address, ?_, ?_, fun e heL hea => ?_⟩
    · exact Address.row_eq_some_iff.mpr ⟨hf, _, he, decode_rowBytes _⟩
    · rw [← rowRank_rowBytes]
      exact habove
    · have h := hle _ (mem_offers.mpr ⟨e, heL, hea.address hp, rfl⟩)
      rw [rowRank_rowBytes, rowRank_rowBytes] at h
      exact UInt64.le_iff_toNat_le.mpr h

theorem among_of_row {h : Header} (hrow : a.row (L.foldl setRow db) = some h) : Among a db L h := by
  by_cases ha : a.ringPrefix = 0 ∧ a.Fits
  · rcases row_settled ha.1 ha.2 L db with ⟨he, -⟩ | ⟨d, hd, hda, hd', -⟩
    · exact .inl (by rw [← hrow, Address.row_congr he])
    · rw [hd', Option.some.injEq] at hrow
      exact .inr ⟨d, hd, hda, hrow.symm⟩
  · exact .inl (by rw [← hrow, Address.row_congr (foldl_setRow_untouched ha L db)])

theorem row_grows {h : Header} (hrow : a.row db = some h) (L : List Data) :
    ∃ h', a.row (L.foldl setRow db) = some h' ∧ h.revision ≤ h'.revision := by
  by_cases ha : a.ringPrefix = 0 ∧ a.Fits
  · rcases row_settled ha.1 ha.2 L db with ⟨he, -⟩ | ⟨d, -, -, hd, hlt, -⟩
    · exact ⟨h, by rw [Address.row_congr he, hrow], UInt64.le_refl _⟩
    · obtain ⟨-, ev, hev, hdec⟩ := Address.row_eq_some_iff.mp hrow
      have hlt' := hlt ev hev
      rw [rowRank_of_decode hdec] at hlt'
      exact ⟨_, hd, UInt64.le_iff_toNat_le.mpr hlt'.le⟩
  · exact ⟨h, by rw [Address.row_congr (foldl_setRow_untouched ha L db), hrow], UInt64.le_refl _⟩

/-- `set` can bring the record at `a` to the revision of the message: it is there already, or
the address is under the prefix 0 and fits, and its index row, if there is one, can be read. -/
def Deliverable (a : Address) (db : Db) (d : Data) : Prop :=
  (∃ h, a.row db = some h ∧ d.header.revision ≤ h.revision) ∨
    a.ringPrefix = 0 ∧ a.Fits ∧ (db[a.index]? = none ∨ (a.row db).isSome)

theorem row_reaches {d : Data} (hr : Deliverable a db d) (hd : d ∈ L) (hda : d.About a) :
    ∃ h', a.row (L.foldl setRow db) = some h' ∧ d.header.revision ≤ h'.revision := by
  rcases hr with ⟨h, hrow, hle⟩ | ⟨hp, hf, hread⟩
  · obtain ⟨h', hrow', hle'⟩ := row_grows hrow L
    exact ⟨h', hrow', UInt64.le_trans hle hle'⟩
  · rcases row_settled hp hf L db with ⟨he, hle⟩ | ⟨e, -, -, hrow, -, hle⟩
    · obtain ⟨ev, hev, hle⟩ := hle d hd hda
      rcases hread with hn | hs
      · rw [hn] at hev
        cases hev
      · obtain ⟨h, hrow⟩ := Option.isSome_iff_exists.mp hs
        obtain ⟨-, ev', hev', hdec⟩ := Address.row_eq_some_iff.mp hrow
        rw [Option.mem_def, hev', Option.some.injEq] at hev
        subst hev
        rw [rowRank_of_decode hdec] at hle
        exact ⟨h, by rw [Address.row_congr he, hrow], UInt64.le_iff_toNat_le.mpr hle⟩
    · exact ⟨_, hrow, hle d hd hda⟩

theorem deliverable_of_row {d : Data} {h : Header}
    (hrow : a.row (L.foldl setRow db) = some h) (hle : d.header.revision ≤ h.revision) :
    Deliverable a db d := by
  by_cases ha : a.ringPrefix = 0 ∧ a.Fits
  · cases hev : db[a.index]? with
    | none => exact .inr ⟨ha.1, ha.2, .inl hev⟩
    | some ev =>
      rcases row_settled ha.1 ha.2 L db with ⟨he, -⟩ | ⟨e, -, -, -, hlt, -⟩
      · rw [Address.row_congr he] at hrow
        exact .inl ⟨h, hrow, hle⟩
      · -- an unreadable row has the highest rank
        refine .inr ⟨ha.1, ha.2, .inr ?_⟩
        cases hdec : KeyIndex.decode ev with
        | none =>
          have h := hlt ev hev
          rw [rowRank_of_unreadable hdec] at h
          exact absurd e.header.revision.toNat_lt h.le.not_gt
        | some h₀ => rw [Address.row_eq_some_iff.mpr ⟨ha.2, ev, hev, hdec⟩, Option.isSome_some]
  · rw [Address.row_congr (foldl_setRow_untouched ha L db)] at hrow
    exact .inl ⟨h, hrow, hle⟩

/-- What a range sync leaves does not depend on the order, the split or the repetitions of
the messages. An index row is at the highest revision exactly if each message about it is
one that `set` can bring it to. -/
theorem range_sync_merges {batches batches' : List (List Data)} (hc : Coherent db batches.flatten)
    (hmem : ∀ d, d ∈ batches.flatten ↔ d ∈ batches'.flatten) :
    (∀ a : Address, (batches.foldl set db)[a.index]? = (batches'.foldl set db)[a.index]?) ∧
      (∀ gd, get (batches.foldl set db) gd = get (batches'.foldl set db) gd) ∧
      ∀ a, Highest a db batches.flatten (batches.foldl set db) ↔
        ∀ d ∈ batches.flatten, d.About a → Deliverable a db d := by
  rw [foldl_set, foldl_set]
  refine ⟨hc.index_congr hmem, fun gd => ?_, fun a => ⟨fun h d hd hda => ?_, fun h => ⟨?_, ?_⟩⟩⟩
  · exact get_congr (hc.index_congr hmem _) fun h hrow hl => hc.data_congr hmem hrow hl
  · obtain ⟨h', hrow, hle⟩ := h.1 _ (.inr ⟨d, hd, hda, rfl⟩)
    exact deliverable_of_row hrow hle
  · rintro h₀ (hrow | ⟨d, hd, hda, rfl⟩)
    · exact row_grows hrow _
    · exact row_reaches (h d hd hda) hd hda
  · exact fun h₀ hrow => among_of_row hrow

section Samples

def sampleEntry (key value : Bytes) (revision : UInt64) (state : UInt32) : Data :=
  ⟨key, value, ⟨revision, 1, 1, 1000, 0, true, state⟩⟩

def sampleSync : List (List Data) :=
  [[sampleEntry [107] [1] 1 0, sampleEntry [107] [2] 2 0], [sampleEntry [108] [] 3 dataStateDeleted]]

def sampleResync : List (List Data) :=
  [[sampleEntry [108] [] 3 dataStateDeleted], [sampleEntry [107] [2] 2 0],
    [sampleEntry [107] [1] 1 0, sampleEntry [107] [2] 2 0]]

theorem coherent_sampleSync : Coherent ∅ sampleSync.flatten := by
  refine ⟨by decide, fun d hd a h hda hrow => ?_⟩
  simp [Address.row] at hrow

theorem range_sync_merges_sample :
    Coherent ∅ sampleSync.flatten ∧
      (∀ gd, get (sampleSync.foldl set ∅) gd = get (sampleResync.foldl set ∅) gd) ∧
      Highest ⟨0, 1, 1, [107]⟩ ∅ sampleSync.flatten (sampleSync.foldl set ∅) ∧
      get (sampleSync.foldl set ∅) ⟨0, sampleEntry [107] [] 0 0⟩ =
        .ok ⟨[], [2], ⟨2, 0, 0, 1000, 0, true, 0⟩⟩ := by
  have hmem : ∀ d, d ∈ sampleSync.flatten ↔ d ∈ sampleResync.flatten := by
    intro d
    simp only [sampleSync, sampleResync, List.flatten_cons, List.flatten_nil, List.append_nil,
      List.mem_append, List.mem_cons, List.not_mem_nil, or_false]
    tauto
  obtain ⟨-, hget, hhigh⟩ := range_sync_merges coherent_sampleSync hmem
  refine ⟨coherent_sampleSync, hget, (hhigh _).mpr fun d hd hda => ?_, by decide +kernel⟩
  exact .inr ⟨rfl, by decide, .inl (by simp)⟩

/-- The record of the key `k`, created under its token. A message with its next revision is
stored under the prefix 0, so that the record and what is read of it stay at revision 1. -/
theorem newer_message_not_taken :
    Reaches LocalWrite.step (LocalWrite.Addressed Murmur3.sum32) ∅ (sampleSource [107] [1]) ∧
      Coherent (sampleSource [107] [1]) [sampleEntry [107] [2] 2 0] ∧
      ¬ Highest (sampleGet [107]).address (sampleSource [107] [1]) [sampleEntry [107] [2] 2 0]
        (set (sampleSource [107] [1]) [sampleEntry [107] [2] 2 0]) ∧
      get (set (sampleSource [107] [1]) [sampleEntry [107] [2] 2 0]) (sampleGet [107]) =
        .ok ⟨[], [1], ⟨1, 0, 0, 1000, 1, true, 0⟩⟩ := by
  have hrow : (sampleGet [107]).address.row (sampleSource [107] [1]) = some ⟨1, 0, 0, 1000, 1, true, 0⟩ := by
    decide +kernel
  have hrow' : (sampleGet [107]).address.row (set (sampleSource [107] [1]) [sampleEntry [107] [2] 2 0]) =
      some ⟨1, 0, 0, 1000, 1, true, 0⟩ := by
    decide +kernel
  refine ⟨sampleSource_reached _ _, ⟨?_, ?_⟩, fun hhigh => ?_, by decide +kernel⟩
  · intro d hd e he _ _
    rw [List.mem_singleton.mp hd, List.mem_singleton.mp he]
  · intro d hd a h hda hah hrev
    obtain rfl := List.mem_singleton.mp hd
    -- the only row of the key is the one under its token
    obtain ⟨-, ev, hev, -⟩ := Address.row_eq_some_iff.mp hah
    have htoken := (wellStored_of_reaches (sampleSource_reached [107] [1])).placed a ev hev
    have hdata : a.data 0 = (sampleGet [107]).address.data 0 := by
      rw [Address.data, hda.1, hda.2.1, hda.2.2]
      rfl
    rw [Address.eq_of_data (p := fun _ _ key => Murmur3.sum32 key) htoken rfl hdata, hrow,
      Option.some.injEq] at hah
    subst hah
    exact absurd hrev (by decide)
  · obtain ⟨h', hh', hle⟩ := hhigh.1 _ (.inr ⟨_, List.mem_singleton_self _, by decide, rfl⟩)
    rw [hrow', Option.some.injEq] at hh'
    subst hh'
    exact absurd hle (by decide)

end Samples

end LocalData

end Tarantula
