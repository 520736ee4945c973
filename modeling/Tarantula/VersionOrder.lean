import Tarantula.HandoffRecords

/-! Whether the revisions of a record order its versions, as the merge rule of `set`
takes them to: the versions that one record goes through under successful writes, and
what `set` makes of copies of them. -/

namespace Tarantula

namespace Version

/-- The revisions agree with the order in which the two versions were written. -/
def Ordered (v w : Version) : Prop :=
  v.revision ≤ w.revision ∧ (v.revision = w.revision → v.state = w.state ∧ v.value = w.value)

def Same (v w : Version) : Prop := v.revision = w.revision ∧ v.state = w.state ∧ v.value = w.value

instance (v w : Version) : Decidable (v.Ordered w) := inferInstanceAs (Decidable (_ ∧ _))
instance (v w : Version) : Decidable (v.Same w) := inferInstanceAs (Decidable (_ ∧ _))

theorem Ordered.trans {u v w : Version} (h : u.Ordered v) (h' : v.Ordered w) : u.Ordered w := by
  refine ⟨UInt64.le_trans h.1 h'.1, fun he => ?_⟩
  have hv : u.revision = v.revision := UInt64.le_antisymm h.1 (he ▸ h'.1)
  have hw : v.revision = w.revision := hv.symm.trans he
  exact ⟨(h.2 hv).1.trans (h'.2 hw).1, (h.2 hv).2.trans (h'.2 hw).2⟩

theorem le_succ_iff (x : UInt64) : x ≤ x + 1 ↔ x + 1 ≠ 0 := by
  rw [UInt64.le_iff_toNat_le, ne_eq, ← UInt64.toNat_inj, UInt64.toNat_add]
  have hx := x.toNat_lt
  have h1 : (1 : UInt64).toNat = 1 := rfl
  have h0 : (0 : UInt64).toNat = 0 := rfl
  omega

theorem ordered_succ_iff {v w : Version} (hw : w.revision = v.revision + 1) :
    v.Ordered w ↔ v.revision + 1 ≠ 0 := by
  have hne : v.revision ≠ v.revision + 1 := by simp
  rw [Ordered, hw, le_succ_iff]
  exact ⟨fun h => h.1, fun h => ⟨h, fun he => absurd he hne⟩⟩

end Version

namespace LocalWrite

def after (db : Db) (e : LocalWrite) : Db := (e.write.op db e.now e.sd).db

/-- A write to a record at version `v` that does not go back: an update or a delete before
the revisions are used up, and a create or a reset, which start at revision 1, where this
is what the record is at anyway. -/
def Advances (e : LocalWrite) : Option Version → Prop
  | none => True
  | some v =>
    match e.write with
    | .update | .delete => v.revision + 1 ≠ 0
    | .create => v.revision ≤ 1 ∧ (v.revision = 1 →
        v.state = e.sd.data.header.state ∧ v.value = shown e.sd.data.header.state e.sd.data.value)
    | .reset => v.revision ≤ 1 ∧ (v.revision = 1 → v.value = shown v.state e.sd.data.value)

def Succeed (a : Address) : Db → List LocalWrite → Prop
  | _, [] => True
  | db, e :: es => e.sd.address = a ∧ (e.write.op db e.now e.sd).err = none ∧ Succeed a (e.after db) es

def moments : Db → List LocalWrite → List Db
  | _, [] => []
  | db, e :: es => e.after db :: moments (e.after db) es

def Forward (a : Address) : Db → List LocalWrite → Prop
  | _, [] => True
  | db, e :: es => e.Advances (a.held db) ∧ Forward a (e.after db) es

instance decidableAdvances : ∀ (e : LocalWrite) v, Decidable (e.Advances v)
  | _, none => isTrue trivial
  | ⟨.update, _, _⟩, some _ | ⟨.delete, _, _⟩, some _ => inferInstanceAs (Decidable (_ ≠ _))
  | ⟨.create, _, _⟩, some _ | ⟨.reset, _, _⟩, some _ => inferInstanceAs (Decidable (_ ∧ _))

instance decidableForward (a : Address) : ∀ db es, Decidable (Forward a db es)
  | _, [] => isTrue trivial
  | db, e :: es =>
    haveI := decidableForward a (e.after db) es
    inferInstanceAs (Decidable (_ ∧ _))

instance decidableSucceed (a : Address) : ∀ db es, Decidable (Succeed a db es)
  | _, [] => isTrue trivial
  | db, e :: es =>
    haveI := decidableSucceed a (e.after db) es
    inferInstanceAs (Decidable (_ ∧ _ ∧ _))

theorem after_holds {a : Address} {db : Db} {e : LocalWrite} {v : Option Version} (ha : e.sd.address = a)
    (he : (e.write.op db e.now e.sd).err = none) (hv : Holds a db v) :
    ∃ w, Holds a (e.after db) (some w) ∧ ((∀ u ∈ v, u.Ordered w) ↔ e.Advances v) := by
  subst ha
  have hf := Write.op_fits e.write e.now hv he
  have hw := Write.op_holds e.write e.now hf hv
  obtain ⟨write, now, sd⟩ := e
  cases write with
  | create =>
    have hst := ((LocalData.create_ok_iff now hv).mp he).2
    refine ⟨_, hw, ?_⟩
    cases v with
    | none => simp [Advances]
    | some v => simp [Advances, Version.created, hst v rfl, Version.Ordered]
  | update =>
    obtain ⟨u, rfl, hu, hrev⟩ := LocalData.update_ok now he hv
    refine ⟨_, hw, ?_⟩
    have hnext : (u.updated sd.data.value sd.data.header.revision).revision = u.revision + 1 := by
      rw [Version.updated, if_pos ⟨hu, hrev⟩]
    simpa [Advances] using Version.ordered_succ_iff hnext
  | delete =>
    rw [Write.op_delete] at he
    obtain ⟨u, h, h', rfl, hu, -, hst, hc⟩ := LocalData.edit_ok_version LocalData.deleted_ids he hv
    refine ⟨_, hw, ?_⟩
    have hlive : u.state ≠ dataStateDeleted := by
      intro hdel
      simp [LocalData.deleted, hst, hdel] at hc
    have hnext : u.deleted.revision = u.revision + 1 := by
      rw [Version.deleted, if_pos ⟨hu, hlive⟩]
    simpa [Advances] using Version.ordered_succ_iff hnext
  | reset =>
    rw [Write.op_reset] at he
    obtain ⟨u, h, h', rfl, hu, -⟩ := LocalData.edit_ok_version LocalData.wasReset_ids he hv
    refine ⟨_, hw, ?_⟩
    simp [Advances, Version.wasReset, hu, Version.Ordered]

theorem moments_hold {a : Address} {db : Db} {es : List LocalWrite} {v : Option Version}
    (hv : Holds a db v) (hs : Succeed a db es) : ∀ db' ∈ moments db es, ∃ w, Holds a db' (some w) := by
  induction es generalizing db v with
  | nil => simp [moments]
  | cons e es ih =>
    obtain ⟨w, hw, -⟩ := after_holds hs.1 hs.2.1 hv
    intro db' hmem
    rcases List.mem_cons.mp hmem with rfl | hmem
    · exact ⟨w, hw⟩
    · exact ih hw hs.2.2 db' hmem

/-- Where no write goes back, the version that is held stands before all later ones. -/
theorem Forward.ordered {a : Address} {db : Db} {es : List LocalWrite} {v : Version}
    (hf : a.Fits) (hv : Holds a db (some v)) (hs : Succeed a db es) (h : Forward a db es) :
    ∀ db' ∈ moments db es, ∃ w, Holds a db' (some w) ∧ v.Ordered w := by
  induction es generalizing db v with
  | nil => simp [moments]
  | cons e es ih =>
    obtain ⟨ha, he, hs⟩ := hs
    obtain ⟨hadv, h⟩ := h
    obtain ⟨w, hw, hiff⟩ := after_holds ha he hv
    rw [hv.held hf] at hadv
    have hvw := hiff.mpr hadv v rfl
    intro db' hmem
    rcases List.mem_cons.mp hmem with rfl | hmem
    · exact ⟨w, hw, hvw⟩
    · obtain ⟨w', hw', hww⟩ := ih hw hs h db' hmem
      exact ⟨w', hw', hvw.trans hww⟩

end LocalWrite

namespace Address

/-- The revisions agree with the order in which the two stores held the record. -/
def Ordered (a : Address) (db db' : Db) : Prop := ∀ v ∈ a.held db, ∀ w ∈ a.held db', v.Ordered w

instance (a : Address) : DecidableRel a.Ordered := fun _ _ => inferInstanceAs (Decidable (∀ _ ∈ _, _))

def sent (a : Address) (db : Db) (lo hi : UInt32) : Option Data :=
  (db[a.index]?).bind fun v => (LocalData.pullRow db lo hi (a.index, v)).join

def zero (a : Address) : Address := { a with ringPrefix := 0 }

/-- The store `dest` has a copy, as `set` makes them, of what `src` holds. -/
def CopyIn (a : Address) (dest src : Db) : Prop :=
  ∃ v w, Holds a.zero dest (some v) ∧ Holds a src (some w) ∧ v.Same w

/-- The merge rule treats copies of what the record was and of what it became as such: the
older one does not replace the newer one, and is replaced by it. -/
def MergesRight (a : Address) (old new : Db) : Prop :=
  ∀ lo hi, ∀ m ∈ a.sent old lo hi, ∀ lo' hi', ∀ m' ∈ a.sent new lo' hi', ∀ dest : Db,
    (a.CopyIn dest new → a.CopyIn (LocalData.setRow dest m) new) ∧
      (a.CopyIn dest old → a.CopyIn (LocalData.setRow dest m') new)

end Address

namespace LocalWrite

variable {a : Address} {db : Db} {es : List LocalWrite}

theorem pairwise_iff_forward (hf : a.Fits) {v : Option Version} (hv : Holds a db v)
    (hs : Succeed a db es) : (db :: moments db es).Pairwise a.Ordered ↔ Forward a db es := by
  induction es generalizing db v with
  | nil => simp [moments, Forward]
  | cons e es ih =>
    obtain ⟨w, hw, hiff⟩ := after_holds hs.1 hs.2.1 hv
    have hrest := ih hw hs.2.2
    rw [List.pairwise_cons]
    constructor
    · rintro ⟨hfirst, hlater⟩
      refine ⟨?_, hrest.mp hlater⟩
      rw [hv.held hf]
      refine hiff.mp fun u hu => ?_
      exact hfirst _ (List.mem_cons_self ..) u (by rw [hv.held hf]; exact hu) w (hw.held hf)
    · intro h
      refine ⟨fun db' hmem u hu w' hw' => ?_, hrest.mpr h.2⟩
      rw [hv.held hf] at hu
      obtain rfl : v = some u := hu
      obtain ⟨x, hx, hux⟩ := Forward.ordered hf hv hs h db' hmem
      rw [hx.held hf] at hw'
      obtain rfl := Option.some.inj hw'
      exact hux

end LocalWrite

section Merge

variable {a : Address} {db : Db}

def Data.version (d : Data) : Version :=
  ⟨d.header.revision, d.header.state, d.header.updatable, shown d.header.state d.value⟩

theorem sent_version (hf : a.Fits) {v : Version} (hv : Holds a db (some v)) {lo hi : UInt32} {m : Data}
    (hm : a.sent db lo hi = some m) : m.address = a.zero ∧ m.version = v := by
  obtain ⟨d, hd, rfl⟩ := hv
  rw [Address.sent, hd, Option.bind_some, LocalData.pullRow_eq hf] at hm
  simp only [Option.join_some] at hm
  split at hm
  · split at hm
    · next hst =>
      cases hm
      exact ⟨rfl, by simp [Data.version, Address.version, shown, hst]⟩
    · next hst =>
      split at hm
      · obtain ⟨value, hval, rfl⟩ := Option.map_eq_some_iff.mp hm
        exact ⟨rfl, by simp [Data.version, Address.version, shown, hst, hval]⟩
      · cases hm
  · cases hm

theorem setRow_holds {d : Data} (hf : d.address.Fits) {w : Version} (hw : Holds d.address db (some w)) :
    Holds d.address (LocalData.setRow db d)
      (some (if w.revision < d.header.revision then d.version else w)) := by
  obtain ⟨e, he, rfl⟩ := hw
  have himport := KeyIndex.importRow_eq hf e (show 25 ≤ compositKeyMax by decide)
  have hlen : 30 + d.address.key.length ≤ compositKeyMax := hf
  rw [if_pos hlen] at himport
  have hrev : (d.address.version db e).revision = e.revision := rfl
  simp only [LocalData.setRow, LocalData.pair_set hf, LocalData.dataKey_set hf, he, himport, hrev]
  split
  · split
    · next hst =>
      have h := holds_erase db d.header hf hst
      rwa [show d.version = ⟨d.header.revision, d.header.state, d.header.updatable, none⟩ by
        simp [Data.version, shown, hst]]
    · exact holds_insert db d.header hf d.value
  · exact ⟨e, he, rfl⟩

theorem mergesRight_of_ordered (hf : a.Fits) {old new : Db} {v w : Version}
    (hv : Holds a old (some v)) (hw : Holds a new (some w)) (h : v.Ordered w) : a.MergesRight old new := by
  intro lo hi m hm lo' hi' m' hm' dest
  obtain ⟨haddr, rfl⟩ := sent_version hf hv hm
  obtain ⟨haddr', rfl⟩ := sent_version hf hw hm'
  refine ⟨?_, ?_⟩
  · rintro ⟨x, w, hx, hw', hsame⟩
    obtain rfl := Option.some.inj (hw'.unique hw)
    rw [← haddr] at hx
    have hset := setRow_holds (haddr ▸ hf) hx
    -- the newer revision is there
    have hnot : ¬ x.revision < m.header.revision := by
      rw [hsame.1]
      exact UInt64.not_lt.mpr h.1
    rw [if_neg hnot, haddr] at hset
    exact ⟨x, _, hset, hw, hsame⟩
  · rintro ⟨x, v, hx, hv', hsame⟩
    obtain rfl := Option.some.inj (hv'.unique hv)
    rw [← haddr'] at hx
    have hset := setRow_holds (haddr' ▸ hf) hx
    rw [haddr'] at hset
    by_cases hlt : x.revision < m'.header.revision
    · rw [if_pos hlt] at hset
      exact ⟨_, _, hset, hw, rfl, rfl, rfl⟩
    · -- both are at one revision
      rw [if_neg hlt] at hset
      have hrev : m.version.revision = m'.version.revision :=
        UInt64.le_antisymm h.1 (hsame.1 ▸ UInt64.not_lt.mp hlt)
      obtain ⟨hst, hval⟩ := h.2 hrev
      exact ⟨x, _, hset, hw, hsame.1.trans hrev, hsame.2.1.trans hst, hsame.2.2.trans hval⟩

end Merge

namespace LocalWrite

/-- The versions a record goes through, from its creation on, are ordered by their revisions
exactly if no write goes back; and then `set` merges copies of them in that order. -/
theorem revisions_order_versions_iff {a : Address} {db : Db} {es : List LocalWrite}
    (hn : Holds a db none) (hs : Succeed a db es) :
    ((moments db es).Pairwise a.Ordered ↔ Forward a db es) ∧
      (Forward a db es → (moments db es).Pairwise a.MergesRight) := by
  cases es with
  | nil => simp [moments, Forward]
  | cons e es =>
    have hf : a.Fits := by
      obtain ⟨rfl, he, -⟩ := hs
      exact Write.op_fits e.write e.now hn he
    have hiff := pairwise_iff_forward hf hn hs
    have hfirst : ∀ db', a.Ordered db db' := by
      intro db' v hv
      rw [hn.held hf] at hv
      cases hv
    rw [List.pairwise_cons, and_iff_right fun db' _ => hfirst db'] at hiff
    refine ⟨hiff, fun h => ?_⟩
    refine (hiff.mpr h).imp_of_mem fun {old new} hold hnew hord => ?_
    obtain ⟨v, hv⟩ := moments_hold hn hs old hold
    obtain ⟨w, hw⟩ := moments_hold hn hs new hnew
    exact mergesRight_of_ordered hf hv hw (hord v (hv.held hf) w (hw.held hf))

section Samples

def sampleAddress : Address := ⟨5, 1, 1, [107]⟩

def sampleOp (write : Write) (value : Bytes) (revision : UInt64) : LocalWrite :=
  ⟨write, 1000, ⟨5, ⟨[107], value, ⟨revision, 1, 1, 0, 0, true, 0⟩⟩⟩⟩

theorem revisions_order_versions_iff_sample :
    let es := [sampleOp .create [1] 0, sampleOp .update [2] 1, sampleOp .delete [] 0]
    Succeed sampleAddress ∅ es ∧ (moments ∅ es).Pairwise sampleAddress.Ordered ∧
      (moments ∅ es).Pairwise sampleAddress.MergesRight := by
  intro es
  have hs : Succeed sampleAddress ∅ es := by decide +kernel
  have hn : Holds sampleAddress ∅ none := by simp [Holds]
  have hf : Forward sampleAddress ∅ es := by decide +kernel
  obtain ⟨hiff, hmerge⟩ := revisions_order_versions_iff hn hs
  exact ⟨hs, hiff.mpr hf, hmerge hf⟩

/-- A record that is created, updated and reset. Its second version has a higher revision
than its third, of which `set` keeps the second, in whatever order the copies arrive. -/
theorem reset_goes_back :
    let a := sampleAddress
    let es := [sampleOp .create [1] 0, sampleOp .update [2] 1, sampleOp .reset [3] 0]
    Holds a ∅ none ∧ Succeed a ∅ es ∧ ¬ (moments ∅ es).Pairwise a.Ordered ∧
      (moments ∅ es).map a.held =
        [some ⟨1, 0, true, some [1]⟩, some ⟨2, 0, true, some [2]⟩, some ⟨1, 0, true, some [3]⟩] ∧
      (moments ∅ es).map (a.sent · 0 10) =
        [some ⟨[107], [1], ⟨1, 1, 1, 1000, 0, true, 0⟩⟩, some ⟨[107], [2], ⟨2, 1, 1, 1000, 0, true, 0⟩⟩,
          some ⟨[107], [3], ⟨1, 1, 1, 1000, 0, true, 0⟩⟩] ∧
      a.zero.held (LocalData.set ∅ [⟨[107], [2], ⟨2, 1, 1, 1000, 0, true, 0⟩⟩,
        ⟨[107], [3], ⟨1, 1, 1, 1000, 0, true, 0⟩⟩]) = some ⟨2, 0, true, some [2]⟩ ∧
      a.zero.held (LocalData.set ∅ [⟨[107], [3], ⟨1, 1, 1, 1000, 0, true, 0⟩⟩,
        ⟨[107], [2], ⟨2, 1, 1, 1000, 0, true, 0⟩⟩]) = some ⟨2, 0, true, some [2]⟩ := by
  refine ⟨by simp [Holds], ?_⟩
  decide +kernel

end Samples

end LocalWrite

end Tarantula
