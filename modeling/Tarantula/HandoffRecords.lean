import Tarantula.Handoff
import Tarantula.Murmur3

/-! What a handoff makes of a record: when the store that receives the batches of `pull`
answers for it as the store they come from. -/

namespace Tarantula

/-- The address under which `set` stores the record of a message. -/
def Data.address (d : Data) : Address := ⟨0, d.header.factoryId, d.header.classId, d.key⟩

/-- The message is not about the record at `a`, whatever the prefix. -/
def Data.Other (a : Address) (d : Data) : Prop :=
  ¬ (a.factoryId = d.header.factoryId ∧ a.classId = d.header.classId ∧ a.key = d.key)

/-- The revision of an index row. One that cannot be read is above all revisions: it is
never replaced. -/
def rowRank (bytes : Bytes) : Nat :=
  match KeyIndex.decode bytes with
  | none => 2 ^ 64
  | some h => h.revision.toNat

theorem rowRank_of_decode {bytes : Bytes} {h : Header} (hd : KeyIndex.decode bytes = some h) :
    rowRank bytes = h.revision.toNat := by
  rw [rowRank, hd]

@[simp] theorem rowRank_rowBytes (h : Header) : rowRank (rowBytes h) = h.revision.toNat := by
  rw [rowRank_of_decode (decode_rowBytes h)]
  rfl

theorem rowRank_of_unreadable {bytes : Bytes} (hd : KeyIndex.decode bytes = none) :
    rowRank bytes = 2 ^ 64 := by
  rw [rowRank, hd]

/-- The message with the value of the record at `a` whose index row holds `d`. -/
def Address.message (a : Address) (d : Header) (value : Bytes) : Data :=
  ⟨a.key, value, { d with factoryId := a.factoryId, classId := a.classId, size := 0 }⟩

namespace LocalData

section Get

variable {db : Db} {gd : Request} {x : Data}

theorem compositKey_request (gd : Request) :
    KeyIndex.compositKey ⟨gd.ringPrefix, gd.data.key, gd.data.header⟩ =
      if gd.address.Fits then some gd.address.index else none :=
  compositKey_indexKey ⟨gd.ringPrefix, gd.data⟩ ⟨rfl, rfl⟩

theorem get_fits (h : get db gd = .ok x) : gd.address.Fits := by
  by_contra hf
  simp [get, compositKey_request, hf] at h

theorem get_of_none (hn : db[gd.address.index]? = none) : get db gd ≠ .ok x := by
  intro h
  simp [get, compositKey_request, get_fits h, hn] at h

theorem get_of_row (hf : gd.address.Fits) {d : Header}
    (hd : db[gd.address.index]? = some (rowBytes d)) :
    get db gd =
      if d.state = dataStateDeleted then .error (.dataDeleted d.state)
      else
        match db[gd.address.data d.revision]? with
        | none => .error .notFound
        | some value => .ok ⟨[], value, ⟨d.revision, 0, 0, d.timestamp, d.size, d.updatable, 0⟩⟩ := by
  have hst : (gd.data.header.withRow d).state = d.state := rfl
  have hk : dataKey gd.data.key (gd.data.header.withRow d) = .ok (gd.address.data d.revision) :=
    dataKey_eq ⟨gd.ringPrefix, gd.data⟩ ⟨rfl, rfl⟩ hf
  simp only [get, compositKey_request, if_pos hf, hd, KeyIndex.val_rowBytes, hst, hk]
  rfl

theorem get_of_live (hf : gd.address.Fits) {d : Header}
    (hd : db[gd.address.index]? = some (rowBytes d)) (hs : d.state ≠ dataStateDeleted) {value : Bytes}
    (hv : db[gd.address.data d.revision]? = some value) :
    get db gd = .ok ⟨[], value, ⟨d.revision, 0, 0, d.timestamp, d.size, d.updatable, 0⟩⟩ := by
  rw [get_of_row hf hd, if_neg hs, hv]

end Get

section Set

variable {db : Db} {d : Data}

theorem pair_set (hf : d.address.Fits) :
    (SetData.indexKey ⟨0, d⟩ d.header).pair = some (d.address.index, rowBytes d.header) :=
  pair_indexKey ⟨0, d⟩ ⟨rfl, rfl⟩ hf

theorem dataKey_set (hf : d.address.Fits) :
    dataKey d.key d.header = .ok (d.address.data d.header.revision) :=
  dataKey_eq ⟨0, d⟩ ⟨rfl, rfl⟩ hf

theorem setRow_oversize (db : Db) (hf : ¬ d.address.Fits) : setRow db d = db := by
  simp only [setRow, pair_indexKey_none ⟨0, d⟩ (h := d.header) ⟨rfl, rfl⟩ hf]

/-- `set` takes a message that is newer than the index row, and then rewrites the record. -/
theorem setRow_cases (db : Db) (hf : d.address.Fits) :
    ((∀ ev ∈ db[d.address.index]?, rowRank ev < rowRank (rowBytes d.header)) ∧
      ∃ x, (d.header.state ≠ dataStateDeleted → x = some d.value) ∧
        Write.Rewrites d.address d.header x db (setRow db d)) ∨
    ((∃ ev ∈ db[d.address.index]?, rowRank (rowBytes d.header) ≤ rowRank ev) ∧ setRow db d = db) := by
  simp only [setRow, pair_set hf, dataKey_set hf]
  cases hev : db[d.address.index]? with
  | none =>
    left
    refine ⟨fun ev h => (by cases h), ?_⟩
    by_cases hs : d.header.state = dataStateDeleted
    · refine ⟨db[d.address.data d.header.revision]?, fun hl => absurd hs hl, hf, fun k => ?_⟩
      simp only [hs, ne_eq, not_true, if_false, ExtMap.getElem?_insert]
      by_cases hk : d.address.data d.header.revision = k
      · rw [if_pos hk, ← hk, if_neg (Address.index_ne_data hf _ _)]
      · rw [if_neg hk]
    · refine ⟨some d.value, fun _ => rfl, ?_⟩
      simp only [ne_eq, hs, not_false_iff, if_true]
      exact Write.rewrites_insert db hf
  | some ev =>
    simp only [KeyIndex.importRow_decode hf]
    cases hdec : KeyIndex.decode ev with
    | none =>
      right
      refine ⟨⟨ev, rfl, ?_⟩, rfl⟩
      rw [rowRank_of_unreadable hdec, rowRank_rowBytes]
      exact d.header.revision.toNat_lt.le
    | some h =>
      simp only [Option.mem_some_iff, forall_eq', exists_eq_left', rowRank_of_decode hdec, rowRank_rowBytes,
        UInt64.lt_iff_toNat_lt]
      by_cases hlt : h.revision.toNat < d.header.revision.toNat
      · left
        refine ⟨hlt, ?_⟩
        rw [if_pos hlt]
        by_cases hs : d.header.state = dataStateDeleted
        · rw [if_pos hs]
          exact ⟨none, fun hl => absurd hs hl, Write.rewrites_erase db hf⟩
        · rw [if_neg hs]
          exact ⟨some d.value, fun _ => rfl, Write.rewrites_insert db hf⟩
      · right
        rw [if_neg hlt]
        exact ⟨by omega, rfl⟩

theorem setRow_new (db : Db) (hf : d.address.Fits) (hn : db[d.address.index]? = none)
    (hs : d.header.state ≠ dataStateDeleted) :
    Write.Rewrites d.address d.header (some d.value) db (setRow db d) := by
  rcases setRow_cases db hf with ⟨-, x, hx, hr⟩ | ⟨⟨ev, hev, -⟩, -⟩
  · rwa [hx hs] at hr
  · rw [hn] at hev
    cases hev

theorem setRow_other {k : Bytes} (hi : d.address.Fits → d.address.index ≠ k)
    (hk : d.address.Fits → d.address.data d.header.revision ≠ k) : (setRow db d)[k]? = db[k]? := by
  by_cases hf : d.address.Fits
  · rcases setRow_cases db hf with ⟨-, x, -, hr⟩ | ⟨-, he⟩
    · rw [hr.get, if_neg (hk hf), if_neg (hi hf)]
    · rw [he]
  · rw [setRow_oversize db hf]

theorem foldl_setRow_other {k : Bytes} {L : List Data}
    (h : ∀ d ∈ L, d.address.Fits → d.address.index ≠ k ∧ d.address.data d.header.revision ≠ k)
    (db : Db) : (L.foldl setRow db)[k]? = db[k]? := by
  induction L generalizing db with
  | nil => rfl
  | cons d L ih =>
    have hd := h d (List.mem_cons_self ..)
    rw [List.foldl_cons, ih fun d hd => h d (List.mem_cons_of_mem _ hd),
      setRow_other (fun hf => (hd hf).1) (fun hf => (hd hf).2)]

theorem foldl_setRow_rows {a : Address} (hf : a.Fits) {L : List Data} (h : ∀ d ∈ L, d.Other a)
    (db : Db) : (L.foldl setRow db)[a.index]? = db[a.index]? ∧
      ∀ rev, (L.foldl setRow db)[a.data rev]? = db[a.data rev]? := by
  refine ⟨foldl_setRow_other (fun d hd hfd => ⟨fun he => h d hd ?_, ?_⟩) db,
    fun rev => foldl_setRow_other (fun d hd hfd => ⟨?_, fun he => h d hd ?_⟩) db⟩
  · rw [← Address.index_inj he]
    exact ⟨rfl, rfl, rfl⟩
  · exact (Address.index_ne_data hfd a _).symm
  · exact Address.index_ne_data hf _ _
  · obtain ⟨hfid, hcid, hkey, -⟩ := Address.data_inj he
    exact ⟨hfid.symm, hcid.symm, hkey.symm⟩

theorem foldl_setRow_untouched {a : Address} (ha : ¬ (a.ringPrefix = 0 ∧ a.Fits)) (L : List Data) (db : Db) :
    (L.foldl setRow db)[a.index]? = db[a.index]? := by
  refine foldl_setRow_other (fun d _ hf => ⟨fun he => ha ?_, fun he => ?_⟩) db
  · rw [← Address.index_inj he]
    exact ⟨rfl, hf⟩
  · exact Address.index_ne_data hf a _ he.symm

/-- A message among messages about other records is stored where it is the first. -/
theorem foldl_setRow_message {a : Address} (hf : a.Fits) (hp : a.ringPrefix = 0) {d : Header}
    (hs : d.state ≠ dataStateDeleted) (value : Bytes) {L₁ L₂ : List Data}
    (h₁ : ∀ x ∈ L₁, x.Other a) (h₂ : ∀ x ∈ L₂, x.Other a) (hn : db[a.index]? = none) :
    ((L₁ ++ a.message d value :: L₂).foldl setRow db)[a.index]? =
        some (rowBytes (a.message d value).header) ∧
      ((L₁ ++ a.message d value :: L₂).foldl setRow db)[a.data d.revision]? = some value := by
  have ha : (a.message d value).address = a := by
    cases a
    cases hp
    rfl
  rw [List.foldl_append, List.foldl_cons]
  have hrow := (foldl_setRow_rows hf h₁ db).1
  have hnew := setRow_new (L₁.foldl setRow db) (d := a.message d value) (by rw [ha]; exact hf)
    (by rw [ha, hrow, hn]) hs
  rw [ha] at hnew
  obtain ⟨hi, hd⟩ := foldl_setRow_rows hf h₂ (setRow (L₁.foldl setRow db) (a.message d value))
  rw [hi, hd, hnew.index, if_pos rfl, hnew.get]
  exact ⟨rfl, if_pos rfl⟩

end Set

section Pull

variable {hash32 : Bytes → UInt32} {src : Db} {lo hi : UInt32}

theorem index_of_mem_indexRows (hrows : OnlyRows src) {row : Bytes × Bytes} (h : row ∈ indexRows src) :
    ∃ (a : Address) (d : Header), a.Fits ∧ src[a.index]? = some (rowBytes d) ∧
      row = (a.index, rowBytes d) := by
  obtain ⟨hmem, hpre⟩ := List.mem_filter.mp h
  have hget := Std.ExtTreeMap.mem_toList_iff_getElem?_eq_some.mp hmem
  rcases hrows _ _ hget with ⟨a, d, hf, hk, hv⟩ | ⟨a, rev, hf, hk⟩
  · exact ⟨a, d, hf, by rw [← hk, ← hv, hget], Prod.ext hk hv⟩
  · obtain ⟨t, ht⟩ := List.isPrefixOf_iff_prefix.mp hpre
    have h₈ := Address.data_ninth hf rev
    rw [← hk, ← ht] at h₈
    cases h₈

theorem index_mem_indexRows {a : Address} {v : Bytes} (h : src[a.index]? = some v) :
    (a.index, v) ∈ indexRows src := by
  refine List.mem_filter.mpr ⟨Std.ExtTreeMap.mem_toList_iff_getElem?_eq_some.mpr h, ?_⟩
  refine List.isPrefixOf_iff_prefix.mpr ⟨beBytes 4 a.ringPrefix.toNat ++ (beBytes 4 a.factoryId.toNat ++
    (beBytes 4 a.classId.toNat ++ (beBytes 4 (Int32.ofNat a.key.length).toUInt32.toNat ++ a.key))), ?_⟩
  rw [show KeyIndex.lookupPrefix indexPrefix = beBytes 4 10 ++ indexPrefix by decide +kernel,
    List.append_assoc]
  rfl

theorem pullRow_ids {a : Address} (hf : a.Fits) {d : Header} {x : Data}
    (hx : pullRow src lo hi (a.index, rowBytes d) = some (some x)) :
    x.header.factoryId = a.factoryId ∧ x.header.classId = a.classId ∧ x.key = a.key := by
  rw [pullRow_eq hf, Option.some.injEq] at hx
  split at hx
  · dsimp only at hx
    split at hx
    · cases hx
      exact ⟨rfl, rfl, rfl⟩
    · split at hx
      · obtain ⟨value, -, rfl⟩ := Option.map_eq_some_iff.mp hx
        exact ⟨rfl, rfl, rfl⟩
      · cases hx
  · cases hx

theorem pullRow_live {a : Address} (hf : a.Fits) {d : Header} (hs : d.state ≠ dataStateDeleted)
    (hr : inRange lo hi a.ringPrefix = true) {value : Bytes}
    (hv : src[a.data d.revision]? = some value) :
    pullRow src lo hi (a.index, rowBytes d) =
      some (if 30 + a.key.length ≤ pullBufferSize then some (a.message d value) else none) := by
  rw [pullRow_eq hf, if_neg hs, if_pos hr, hv]
  rfl

theorem pull_flatten (hrows : OnlyRows src) (lo hi : UInt32) :
    ∃ all, pull src lo hi = some all ∧
      all.flatten = (indexRows src).filterMap fun row => (pullRow src lo hi row).getD none := by
  refine pullLoop_flatten (fun row hmem => ?_) [] []
  obtain ⟨a, d, hf, -, rfl⟩ := index_of_mem_indexRows hrows hmem
  simp only [pullRow_eq hf, Option.getD_some]

/-- The batches hold what is sent for a record, and otherwise only messages about others,
if the record is the only one of its class and key. -/
theorem pull_split (hrows : OnlyRows src) {a : Address} {d : Header}
    (hrow : src[a.index]? = some (rowBytes d))
    (hone : ∀ (a' : Address) v, src[a'.index]? = some v → a.data 0 = a'.data 0 → a = a') {o : Option Data}
    (ho : pullRow src lo hi (a.index, rowBytes d) = some o) :
    ∃ all L₁ L₂, pull src lo hi = some all ∧ all.flatten = L₁ ++ (o.toList ++ L₂) ∧
      (∀ x ∈ L₁, x.Other a) ∧ ∀ x ∈ L₂, x.Other a := by
  obtain ⟨all, hall, hflat⟩ := pull_flatten hrows lo hi
  obtain ⟨r₁, r₂, hsplit⟩ := List.append_of_mem (index_mem_indexRows hrow)
  have hdist : (indexRows src).Pairwise fun x y => ¬ compare x.1 y.1 = .eq :=
    Std.ExtTreeMap.distinct_keys_toList.filter _
  have hne : ∀ row ∈ r₁ ++ r₂, row.1 ≠ a.index := by
    rw [hsplit, List.pairwise_append, List.pairwise_cons] at hdist
    obtain ⟨-, ⟨h₂, -⟩, h₁⟩ := hdist
    intro row hmem he
    rcases List.mem_append.mp hmem with hmem | hmem
    · exact h₁ row hmem _ (List.mem_cons_self ..) (Std.compare_eq_iff_eq.mpr he)
    · exact h₂ row hmem (Std.compare_eq_iff_eq.mpr he.symm)
  have hother : ∀ row ∈ r₁ ++ r₂, ∀ x ∈ (pullRow src lo hi row).getD none, x.Other a := by
    intro row hmem x hx hsame
    have hmem' : row ∈ indexRows src := by
      rw [hsplit]
      simp only [List.mem_append, List.mem_cons] at hmem ⊢
      tauto
    obtain ⟨a', d', hf', hget, rfl⟩ := index_of_mem_indexRows hrows hmem'
    have hsent : pullRow src lo hi (a'.index, rowBytes d') = some (some x) := by
      rw [pullRow_eq hf', Option.getD_some] at hx
      rw [pullRow_eq hf', Option.mem_def.mp hx]
    obtain ⟨hfid, hcid, hkey⟩ := pullRow_ids hf' hsent
    have hdata : a.data 0 = a'.data 0 := by
      simp only [Address.data, hsame.1, hsame.2.1, hsame.2.2, hfid, hcid, hkey]
    exact hne _ hmem (by rw [hone a' _ hget hdata])
  refine ⟨all, r₁.filterMap fun row => (pullRow src lo hi row).getD none,
    r₂.filterMap fun row => (pullRow src lo hi row).getD none, hall, ?_, fun x hx => ?_, fun x hx => ?_⟩
  · rw [hflat, hsplit, List.filterMap_append, List.filterMap_cons, ho, Option.getD_some]
    cases o <;> rfl
  · obtain ⟨row, hmem, hrow⟩ := List.mem_filterMap.mp hx
    exact hother row (List.mem_append_left _ hmem) x hrow
  · obtain ⟨row, hmem, hrow⟩ := List.mem_filterMap.mp hx
    exact hother row (List.mem_append_right _ hmem) x hrow

end Pull

/-- A live record of the range is handed over unchanged exactly if its token is 0, its key
fits the buffer with which `pull` imports the index row, and its value is empty (up to
the 32 bits of the size). -/
theorem handoff_preserves_iff {hash32 : Bytes → UInt32} {src dest : Db} {lo hi : UInt32}
    {gd : Request} {x : Data}
    (hsrc : Reaches LocalWrite.step (LocalWrite.Addressed hash32) ∅ src)
    (hlive : get src gd = .ok x) (hrange : inRange lo hi gd.ringPrefix = true)
    (hdest : dest[gd.address.index]? = none) :
    ∃ batches, pull src lo hi = some batches ∧
      (get (batches.foldl set dest) gd = .ok x ↔
        hash32 gd.data.key = 0 ∧ 30 + gd.data.key.length ≤ pullBufferSize ∧
          x.value.length % 2 ^ 32 = 0) := by
  have hs := wellStored_of_reaches hsrc
  have hf := get_fits hlive
  cases hrow : src[gd.address.index]? with
  | none => exact absurd hlive (get_of_none hrow)
  | some v =>
    obtain ⟨-, d, rfl⟩ := OnlyRows.index_row hs.rows hrow
    have htoken : gd.ringPrefix = hash32 gd.data.key := hs.placed _ _ hrow
    have hst : d.state ≠ dataStateDeleted := by
      intro hst
      simp [get_of_row hf hrow, hst] at hlive
    obtain ⟨value, -, hv, hsize⟩ := hs.live _ d hrow hst
    rw [get_of_live hf hrow hst hv] at hlive
    cases hlive
    have hpull := pullRow_live hf hst hrange hv
    obtain ⟨all, L₁, L₂, hall, hflat, h₁, h₂⟩ := pull_split hs.rows hrow
      (fun a' v hv' hdata => Address.eq_of_data (p := fun _ _ key => hash32 key) (hs.placed _ _ hrow)
        (hs.placed a' v hv') hdata) hpull
    refine ⟨all, hall, ?_⟩
    rw [foldl_set, ← htoken]
    by_cases hzero : gd.ringPrefix = 0
    · rw [hflat]
      by_cases hfit : 30 + gd.data.key.length ≤ pullBufferSize
      · have hfit' : 30 + gd.address.key.length ≤ pullBufferSize := hfit
        obtain ⟨hrow', hv'⟩ := foldl_setRow_message hf hzero hst value h₁ h₂ hdest
        rw [if_pos hfit', Option.toList_some, List.singleton_append, get_of_live hf hrow' hst hv']
        have hempty : 0 = UInt32.ofNat value.length ↔ value.length % 2 ^ 32 = 0 := by
          rw [eq_comm, ← UInt32.toNat_inj, UInt32.toNat_ofNat']
          rfl
        simpa [Address.message, hzero, hfit, hsize] using hempty
      · have hfit' : ¬ 30 + gd.address.key.length ≤ pullBufferSize := hfit
        rw [if_neg hfit', Option.toList_none, List.nil_append]
        have hn := (foldl_setRow_rows hf (fun x hx => (List.mem_append.mp hx).elim (h₁ x) (h₂ x)) dest).1
        rw [hdest] at hn
        exact ⟨fun h => absurd h (get_of_none hn), fun h => absurd h.2.1 hfit⟩
    · have hn := foldl_setRow_untouched (a := gd.address) (fun h => hzero h.1) all.flatten dest
      rw [hdest] at hn
      exact ⟨fun h => absurd h (get_of_none hn), fun h => absurd h.1 hzero⟩

section Samples

def sampleWrite (key value : Bytes) : LocalWrite :=
  ⟨.create, 1000, ⟨Murmur3.sum32 key, ⟨key, value, ⟨0, 1, 1, 0, 0, true, 0⟩⟩⟩⟩

def sampleSource (key value : Bytes) : Db :=
  (Write.create.op ∅ 1000 (sampleWrite key value).sd).db

def sampleGet (key : Bytes) : Request := ⟨Murmur3.sum32 key, ⟨key, [], ⟨0, 1, 1, 0, 0, false, 0⟩⟩⟩

theorem sampleSource_reached (key value : Bytes) :
    Reaches LocalWrite.step (LocalWrite.Addressed Murmur3.sum32) ∅ (sampleSource key value) :=
  .single ⟨sampleWrite key value, rfl, rfl⟩

/-- What the source and, after the handoff into an empty store, the destination answer. -/
def sampleAnswers (key value : Bytes) (lo hi : UInt32) : Option (Option Data × Option Data) :=
  (pull (sampleSource key value) lo hi).map fun batches =>
    ((get (sampleSource key value) (sampleGet key)).toOption,
      (get (batches.foldl set ∅) (sampleGet key)).toOption)

/-- A key with the token 0. -/
def unhashedKey : Bytes := [122, 155, 71, 194]

/-- The destination has another record. -/
theorem handoff_preserves_iff_sample :
    get (sampleSource unhashedKey []) (sampleGet unhashedKey) = .ok ⟨[], [], ⟨1, 0, 0, 1000, 0, true, 0⟩⟩ ∧
    get (sampleSource [107] [1]) (sampleGet [107]) = .ok ⟨[], [1], ⟨1, 0, 0, 1000, 1, true, 0⟩⟩ ∧
    ∃ batches, pull (sampleSource unhashedKey []) 0 10 = some batches ∧
      get (batches.foldl set (sampleSource [107] [1])) (sampleGet unhashedKey) =
        .ok ⟨[], [], ⟨1, 0, 0, 1000, 0, true, 0⟩⟩ := by
  have hlive : get (sampleSource unhashedKey []) (sampleGet unhashedKey) =
    .ok ⟨[], [], ⟨1, 0, 0, 1000, 0, true, 0⟩⟩ := by
    decide +kernel
  have hrange : inRange 0 10 (sampleGet unhashedKey).ringPrefix = true := by decide +kernel
  have hdest : (sampleSource [107] [1])[(sampleGet unhashedKey).address.index]? = none := by decide +kernel
  obtain ⟨batches, hb, hiff⟩ := handoff_preserves_iff (sampleSource_reached unhashedKey []) hlive hrange hdest
  exact ⟨hlive, by decide +kernel, batches, hb, hiff.mpr (by decide +kernel)⟩

/-- The record of the key `k` cannot be found on the destination, which has it under the
prefix 0; a value under the empty key is found, with the size 0. -/
theorem handoff_loses_prefix_and_size :
    Reaches LocalWrite.step (LocalWrite.Addressed Murmur3.sum32) ∅ (sampleSource [107] [1]) ∧
    inRange 0 4294967295 (Murmur3.sum32 [107]) = true ∧
    sampleAnswers [107] [1] 0 4294967295 =
      some (some ⟨[], [1], ⟨1, 0, 0, 1000, 1, true, 0⟩⟩, none) ∧
    Reaches LocalWrite.step (LocalWrite.Addressed Murmur3.sum32) ∅ (sampleSource [] [1]) ∧
    inRange 0 10 (Murmur3.sum32 []) = true ∧
    sampleAnswers [] [1] 0 10 =
      some (some ⟨[], [1], ⟨1, 0, 0, 1000, 1, true, 0⟩⟩, some ⟨[], [1], ⟨1, 0, 0, 1000, 0, true, 0⟩⟩) :=
  ⟨sampleSource_reached _ _, by decide +kernel, by decide +kernel, sampleSource_reached _ _,
    by decide +kernel, by decide +kernel⟩

end Samples

end LocalData

end Tarantula
