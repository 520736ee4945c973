import Tarantula.DataService
import Tarantula.HandoffRecords

/-! Under which index key the handlers of the data service look for a record. `Create` and
`Reset` put the token of the key in the place of a prefix 0, the others do not. -/

namespace Tarantula

namespace Reply

/-- The reply does not say that the key is missing. -/
def Found (r : Reply) : Prop :=
  ∀ resp ∈ r.resp, resp.message ≠ some .notFound ∧ resp.message ≠ some .notExisted

def Successful (r : Reply) : Prop := ∃ resp ∈ r.resp, resp.successful = true ∧ resp.message = none

theorem Successful.found {r : Reply} (h : r.Successful) : r.Found := by
  obtain ⟨resp, hresp, -, hm⟩ := h
  intro resp' hresp'
  obtain rfl : resp = resp' := Option.some.inj (hresp.symm.trans hresp')
  simp [hm]

end Reply

namespace LocalData

variable {db : Db} {sd : SetData}

theorem get_missing {gd : Request} (hf : gd.address.Fits) (hn : db[gd.address.index]? = none) :
    get db gd = .error .notFound := by
  simp only [get, compositKey_request, if_pos hf, hn]

theorem edit_err {verb : Verb} {change : Header → Except Fail Header} {store : Db → Bytes → Db}
    {d : Header} (hc : KeepsIds change) (hf : sd.address.Fits)
    (hd : db[sd.address.index]? = some (rowBytes d)) (hu : d.updatable = true) :
    (edit verb change store db sd).err =
      match change (sd.data.header.withRow d) with
      | .error e => some e
      | .ok _ => none := by
  have hrow : sd.address.row db = some (Header.withRow default d) := by
    rw [Address.row, if_pos hf, hd, Option.bind_some, decode_rowBytes]
  have hup : (Header.withRow default d).updatable = d.updatable := rfl
  have hsame : sd.data.header.withRow (Header.withRow default d) = sd.data.header.withRow d := rfl
  rw [edit_of_row hrow hc, hup, hu, hsame]
  cases change (sd.data.header.withRow d) <;> rfl

end LocalData

namespace DataService

section Replies

variable {d : Done}

theorem serve_found (h : d.err ≠ some .notFound ∧ d.err ≠ some .notExisted) :
    (serve d).reply.Found := by
  intro resp hresp
  obtain rfl := Option.some.inj hresp
  cases he : d.err with
  | none => simp [respond, he]
  | some e => simpa [respond, he] using h

theorem serve_successful (h : d.err = none) : (serve d).reply.Successful :=
  ⟨respond d, rfl, by simp [respond, h]⟩

end Replies

section Created

variable {hash32 : Bytes → UInt32} {db : Db} {now : UInt64} {req : Request}

def stored (hash32 : Bytes → UInt32) (req : Request) : SetData := ⟨ringPrefixOf hash32 req, req.data⟩

theorem stored_address_iff : (stored hash32 req).address = req.address ↔
    req.ringPrefix ≠ 0 ∨ hash32 req.data.key = 0 := by
  have h : (stored hash32 req).address = req.address ↔ ringPrefixOf hash32 req = req.ringPrefix := by
    constructor
    · exact congrArg Address.ringPrefix
    · intro h
      simp only [SetData.address, Request.address, stored, h]
  rw [h, ringPrefixOf]
  by_cases hp : req.ringPrefix = 0 <;> simp [hp]

theorem create_rewrites (hok : (create hash32 db now req).reply.err = none) :
    Write.Rewrites (stored hash32 req).address (LocalData.fresh now (stored hash32 req))
      (some req.data.value) db (create hash32 db now req).db :=
  Write.create_rewrites hok

variable {r : Request} (now' : UInt64)

theorem stored_address_congr (hr : r.address = req.address) :
    (stored hash32 r).address = (stored hash32 req).address := by
  simp only [Request.address, Address.mk.injEq] at hr
  obtain ⟨hp, hfid, hcid, hkey⟩ := hr
  simp only [SetData.address, stored, ringPrefixOf, hp, hfid, hcid, hkey]

theorem edit_created {verb : Verb} {change : Header → Except Fail Header} {store : Db → Bytes → Db}
    (hok : (create hash32 db now req).reply.err = none) (hu : req.data.header.updatable = true)
    {sd : SetData} (hs : sd.address = (stored hash32 req).address) (hc : LocalData.KeepsIds change) :
    (LocalData.edit verb change store (create hash32 db now req).db sd).err =
      match change (sd.data.header.withRow (LocalData.fresh now (stored hash32 req))) with
      | .error e => some e
      | .ok _ => none := by
  have h := create_rewrites hok
  refine LocalData.edit_err hc (hs ▸ h.fits) ?_ hu
  rw [h.index, if_pos hs.symm]

theorem reset_created (hok : (create hash32 db now req).reply.err = none)
    (hu : req.data.header.updatable = true) (hr : r.address = req.address) :
    (reset hash32 (create hash32 db now req).db now' r).reply.Successful :=
  serve_successful (edit_created hok hu (stored_address_congr hr) LocalData.wasReset_ids)

section Reached

variable (hok : (create hash32 db now req).reply.err = none) (hu : req.data.header.updatable = true)
  (ha : (stored hash32 req).address = req.address) (hr : r.address = req.address)

include hok ha hr

theorem get_created : get (create hash32 db now req).db r =
    if req.data.header.state = dataStateDeleted then
      ⟨some ⟨false, some (.dataDeleted req.data.header.state), []⟩,
        some (.dataDeleted req.data.header.state)⟩
    else ⟨some ⟨true, none, [⟨[], req.data.value, ⟨1, 0, 0, now,
      UInt32.ofNat req.data.value.length, req.data.header.updatable, 0⟩⟩]⟩, none⟩ := by
  have h := create_rewrites hok
  have hs : (stored hash32 req).address = r.address := ha.trans hr.symm
  have hrow := h.index r.address
  rw [if_pos hs] at hrow
  have hval := h.get (r.address.data 1)
  rw [if_pos (by rw [hs]; rfl)] at hval
  have hget := LocalData.get_of_row (hs ▸ h.fits) hrow
  have hrev : (LocalData.fresh now (stored hash32 req)).revision = 1 := rfl
  have hst : (LocalData.fresh now (stored hash32 req)).state = req.data.header.state := rfl
  rw [hrev, hval, hst] at hget
  rw [get, hget]
  by_cases hdel : req.data.header.state = dataStateDeleted
  · rw [if_pos hdel, if_pos hdel]
  · rw [if_neg hdel, if_neg hdel]
    rfl

include hu

theorem update_created_err :
    (LocalData.update (create hash32 db now req).db now' ⟨r.ringPrefix, r.data⟩).err =
      if r.data.header.revision = 1 then none else some (.revision 1 r.data.header.revision) := by
  have hs : SetData.address ⟨r.ringPrefix, r.data⟩ = (stored hash32 req).address := hr.trans ha.symm
  have hrev : (r.data.header.withRow (LocalData.fresh now (stored hash32 req))).revision = 1 := rfl
  rw [LocalData.update, edit_created hok hu hs LocalData.updated_ids, LocalData.updated, hrev]
  by_cases h1 : r.data.header.revision = 1
  · rw [if_pos h1, if_neg (not_not.mpr h1.symm)]
  · rw [if_neg h1, if_pos (Ne.symm h1)]

theorem delete_created_err :
    (LocalData.delete (create hash32 db now req).db ⟨r.ringPrefix, r.data⟩).err =
      if req.data.header.state = dataStateDeleted then some (.deletedBefore req.data.header.state)
      else none := by
  have hs : SetData.address ⟨r.ringPrefix, r.data⟩ = (stored hash32 req).address := hr.trans ha.symm
  have hst : (r.data.header.withRow (LocalData.fresh now (stored hash32 req))).state =
      req.data.header.state := rfl
  rw [LocalData.delete, edit_created hok hu hs LocalData.deleted_ids, LocalData.deleted, hst]
  by_cases hdel : req.data.header.state = dataStateDeleted
  · rw [if_pos hdel, if_pos hdel]
  · rw [if_neg hdel, if_neg hdel]

end Reached

theorem get_missing_created (hnone : ∀ p, db[Address.index { req.address with ringPrefix := p }]? = none)
    (hok : (create hash32 db now req).reply.err = none)
    (ha : (stored hash32 req).address ≠ req.address) (hr : r.address = req.address) :
    ¬ (get (create hash32 db now req).db r).Found := by
  have h := create_rewrites hok
  have hf : req.address.Fits := h.fits
  have hn : (create hash32 db now req).db[req.address.index]? = none := by
    rw [h.index, if_neg ha]
    exact hnone req.ringPrefix
  rw [← hr] at hf hn
  intro hfound
  have hne := (hfound ⟨false, some .notFound, []⟩ (by simp [get, LocalData.get_missing hf hn])).1
  exact hne rfl

/-- What `Create` has stored is found by all handlers under the prefix of the request
exactly if this is not 0, or is the token of the key; then they succeed, unless the
record was created as a tombstone. -/
theorem found_after_create_iff
    (hnone : ∀ p, db[Address.index { req.address with ringPrefix := p }]? = none)
    (hok : (create hash32 db now req).reply.err = none) (hu : req.data.header.updatable = true) :
    ((∀ r : Request, r.address = req.address → ∀ now',
      let db' := (create hash32 db now req).db
      (get db' r).Found ∧ (update db' now' r).reply.Found ∧ (reset hash32 db' now' r).reply.Found ∧
        (delete db' now' r).reply.Found) ↔ req.ringPrefix ≠ 0 ∨ hash32 req.data.key = 0) ∧
    (req.ringPrefix ≠ 0 ∨ hash32 req.data.key = 0 → req.data.header.state ≠ dataStateDeleted →
      ∀ r : Request, r.address = req.address → ∀ now',
      let db' := (create hash32 db now req).db
      (get db' r).Successful ∧ (r.data.header.revision = 1 → (update db' now' r).reply.Successful) ∧
        (reset hash32 db' now' r).reply.Successful ∧ (delete db' now' r).reply.Successful) := by
  rw [← stored_address_iff]
  refine ⟨⟨fun h => ?_, fun ha r hr now' => ?_⟩, fun ha hst r hr now' => ?_⟩
  · by_contra ha
    exact get_missing_created hnone hok ha rfl (h req rfl now).1
  · refine ⟨?_, serve_found ?_, (reset_created now' hok hu hr).found, serve_found ?_⟩
    · rw [get_created hok ha hr]
      intro resp hresp
      split at hresp
      · obtain rfl := Option.some.inj hresp
        simp
      · obtain rfl := Option.some.inj hresp
        simp
    · rw [update_created_err now' hok hu ha hr]
      split <;> simp
    · rw [delete_created_err hok hu ha hr]
      split <;> simp
  · refine ⟨?_, fun hrev => serve_successful ?_, reset_created now' hok hu hr, serve_successful ?_⟩
    · rw [get_created hok ha hr, if_neg hst]
      exact ⟨_, rfl, rfl, rfl⟩
    · rw [update_created_err now' hok hu ha hr, if_pos hrev]
    · rw [delete_created_err hok hu ha hr, if_neg hst]

end Created

/-- The request 7/1/1/`k`, to which all handlers answer. -/
theorem found_after_create_iff_sample :
    let req : Request := ⟨7, ⟨[107], [1], ⟨1, 1, 1, 0, 0, true, 0⟩⟩⟩
    let db' := (create Murmur3.sum32 ∅ 1000 req).db
    (get db' req).Successful ∧ (update db' 1001 req).reply.Successful ∧
      (reset Murmur3.sum32 db' 1001 req).reply.Successful ∧ (delete db' 1001 req).reply.Successful := by
  intro req db'
  have hnone : ∀ p, (∅ : Db)[Address.index { req.address with ringPrefix := p }]? = none := by simp
  have hok : (create Murmur3.sum32 ∅ 1000 req).reply.err = none := by decide +kernel
  obtain ⟨hget, hupdate, hrest⟩ :=
    (found_after_create_iff hnone hok rfl).2 (.inl (by decide)) (by decide) req rfl 1001
  exact ⟨hget, hupdate rfl, hrest⟩

/-- With the prefix 0 the record is created under the token of its key, where `Get`,
`Update` and `Delete` do not look. -/
theorem created_under_token_is_missed :
    let req : Request := ⟨0, ⟨[107], [1], ⟨1, 1, 1, 0, 0, true, 0⟩⟩⟩
    let db' := (create Murmur3.sum32 ∅ 1000 req).db
    (∀ p, (∅ : Db)[Address.index { req.address with ringPrefix := p }]? = none) ∧
      (create Murmur3.sum32 ∅ 1000 req).reply.err = none ∧
      Murmur3.sum32 [107] ≠ 0 ∧ (Address.row ⟨Murmur3.sum32 [107], 1, 1, [107]⟩ db').isSome ∧
      get db' req = ⟨some ⟨false, some .notFound, []⟩, some .notFound⟩ ∧
      (update db' 1001 req).reply = ⟨some ⟨false, some .notExisted, []⟩, some .notExisted⟩ ∧
      (delete db' 1001 req).reply = ⟨some ⟨false, some .notExisted, []⟩, none⟩ ∧
      (reset Murmur3.sum32 db' 1001 req).reply.err = none := by
  refine ⟨by simp, ?_⟩
  decide +kernel

end DataService

end Tarantula
