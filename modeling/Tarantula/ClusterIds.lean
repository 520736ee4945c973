import Tarantula.MemberHashRing
import Tarantula.Snowflake
import Tarantula.Text

/-! The node ids of the processes of a cluster, and when their generators return the same id. -/

namespace Tarantula

/-- `core.Env`, the part of the configuration that names a node. -/
structure CoreEnv where
  groupName : Bytes
  nodeName : Bytes
  nodeId : Int64
  deriving DecidableEq, Repr

/-- `Load`, given what the file of the service configures and the value of `SEQ`, if it is set. -/
def CoreEnv.load (f : CoreEnv) (seq : Option Bytes) : Except Text.NumError CoreEnv :=
  match seq with
  | none => .ok f
  | some c =>
    match Text.parseInt 64 c with
    | .error e => .error e
    | .ok seq =>
      let nodeId := f.nodeId + Int64.ofInt seq
      .ok { f with nodeId, nodeName := f.groupName ++ utf8 "." ++ Text.formatInt nodeId.toInt }

def seqValue (seq : Option Bytes) : Int :=
  match seq.map (Text.parseInt 64) with
  | some (.ok k) => k
  | _ => 0

/-- Midnight of January 1, 2020 in milliseconds. -/
def epoch2020 : Int64 := 1577836800000

def CoreEnv.start (f : CoreEnv) : Snowflake := .new f.nodeId epoch2020

namespace Snowflake

def nodeBits (x : Int64) : BitVec 10 := x.toBitVec.extractLsb' 12 10

theorem nodeBits_stamp {s : Snowflake} (h : 0 ≤ s.sequence.toInt ∧ s.sequence.toInt < 4096) :
    nodeBits s.stamp = s.nodeId.toBitVec.setWidth 10 := by
  have hq : ∀ i, 12 ≤ i → s.sequence.toBitVec.getLsbD i = false := by
    intro i hi
    have hn := toNat_toBitVec h.1
    have hle : 2 ^ 12 ≤ 2 ^ i := Nat.pow_le_pow_right (by omega) hi
    exact Nat.testBit_lt_two_pow (by omega)
  rw [nodeBits, toBitVec_stamp]
  apply BitVec.eq_of_getLsbD_eq
  intro i hi
  rw [BitVec.getLsbD_extractLsb', BitVec.getLsbD_or, BitVec.getLsbD_or,
    hq _ (by omega), BitVec.getLsbD_setWidth, BitVec.getLsbD_shiftLeft, BitVec.getLsbD_shiftLeft,
    Nat.add_sub_cancel_left]
  have h₁ : 12 + i < 22 := by omega
  have h₂ : 12 + i < 64 := by omega
  simp [h₁, h₂]

theorem nodeBits_of_mem_ids {n : Nat} {s : Snowflake} {clock : List Int64} {x : Int64}
    (hq : 0 ≤ s.sequence.toInt) (hx : x ∈ ids n s clock) :
    nodeBits x = s.nodeId.toBitVec.setWidth 10 := by
  induction n generalizing s clock with
  | zero => simp [ids] at hx
  | succ n ih =>
    rw [ids] at hx
    cases hid : s.id clock with
    | none => simp [hid] at hx
    | some ret =>
      obtain ⟨r, s', rest⟩ := ret
      simp only [hid, List.mem_append, Option.mem_toList] at hx
      obtain ⟨used, now, rfl, ⟨rfl, rfl⟩ | ⟨rfl, sequence, hmove, rfl⟩⟩ := id_cases hid
      · rcases hx with hx | hx
        · cases hx
        · exact ih hq hx
      · have hq' := hmove.sequence_bounds hq
        rcases hx with hx | hx
        · cases hx
          exact nodeBits_stamp hq'
        · exact ih (s := { s with lastTimestamp := _, sequence := sequence }) hq'.1 hx

theorem toNat_setWidth_toBitVec (x : Int64) : ((x.toBitVec.setWidth 10).toNat : Int) = x.toInt % 1024 := by
  have hc := BitVec.toInt_eq_toNat_cond x.toBitVec
  rw [Int64.toInt_toBitVec] at hc
  rw [BitVec.toNat_setWidth]
  split at hc <;> omega

theorem setWidth_toBitVec_eq_iff (x y : Int64) :
    x.toBitVec.setWidth 10 = y.toBitVec.setWidth 10 ↔ x.toInt % 1024 = y.toInt % 1024 := by
  rw [← toNat_setWidth_toBitVec, ← toNat_setWidth_toBitVec, Int.natCast_inj, BitVec.toNat_inj]

/-- A timestamp whose lower 42 bits are set, which hides all of the node id but its last ten
bits. -/
def allSet : Int64 := 2 ^ 42 - 1

theorem stamp_allSet {s s' : Snowflake} (ht : s.lastTimestamp = allSet) (ht' : s'.lastTimestamp = allSet)
    (hq : s.sequence = s'.sequence) (hn : s.nodeId.toBitVec.setWidth 10 = s'.nodeId.toBitVec.setWidth 10) :
    s.stamp = s'.stamp := by
  have hbits : ∀ i < 10, s.nodeId.toBitVec.getLsbD i = s'.nodeId.toBitVec.getLsbD i := by
    intro i hi
    have h := congrArg (BitVec.getLsbD · i) hn
    simpa [BitVec.getLsbD_setWidth, hi] using h
  have hall : ∀ i < 42, allSet.toBitVec.getLsbD i = true := by
    intro i hi
    have hbit : allSet.toBitVec.getLsbD i = (2 ^ 42 - 1).testBit i := rfl
    rw [hbit, Nat.testBit_two_pow_sub_one, decide_eq_true hi]
  apply Int64.toBitVec_inj.mp
  rw [toBitVec_stamp, toBitVec_stamp]
  apply BitVec.eq_of_getLsbD_eq
  intro i hi
  simp only [BitVec.getLsbD_or, BitVec.getLsbD_shiftLeft, ht, ht', hq]
  by_cases hlow : i < 22
  · by_cases hseq : i < 12
    · simp [hlow, hseq]
    · simp [hlow, hbits (i - 12) (by omega)]
  · simp [hlow, hi, hall (i - 22) (by omega)]

end Snowflake

theorem toInt_bmod_emod (x : Int) : x.bmod (2 ^ 64) % 1024 = x % 1024 := by
  rw [Int.bmod_def]
  split <;> omega

theorem CoreEnv.load_nodeId {conf f : CoreEnv} {seq : Option Bytes} (h : conf.load seq = .ok f) :
    f.nodeId.toInt % 1024 = (conf.nodeId.toInt + seqValue seq) % 1024 := by
  cases seq with
  | none =>
    cases h
    simp [seqValue]
  | some c =>
    rw [load] at h
    cases hc : Text.parseInt 64 c with
    | error e =>
      rw [hc] at h
      cases h
    | ok k =>
      rw [hc] at h
      cases h
      have hk : k.bmod Int64.size % 1024 = k % 1024 := toInt_bmod_emod k
      rw [seqValue, Option.map_some, hc, Int64.toInt_add, toInt_bmod_emod, Int64.toInt_ofInt]
      dsimp only
      omega

/-- Two processes whose node ids agree modulo 1024 return the same id in the same millisecond. -/
theorem exists_common_id {f f' : CoreEnv} (h : f.nodeId.toInt % 1024 = f'.nodeId.toInt % 1024) :
    ∃ (now id : Int64), Snowflake.ids 1 f.start [now] = [id] ∧ Snowflake.ids 1 f'.start [now] = [id] := by
  have hids : ∀ f : CoreEnv, Snowflake.ids 1 f.start [Snowflake.allSet + epoch2020] =
      [(⟨f.nodeId, epoch2020, Snowflake.allSet, 0⟩ : Snowflake).stamp] := by
    intro f
    have hts : Snowflake.allSet + epoch2020 - epoch2020 = Snowflake.allSet := by decide
    have hge : ¬ Snowflake.allSet < -1 := by decide
    have hne : Snowflake.allSet ≠ -1 := by decide
    simp only [Snowflake.ids, Snowflake.id, CoreEnv.start, Snowflake.new, hts, if_neg hge, if_neg hne]
    rfl
  have hbits := (Snowflake.setWidth_toBitVec_eq_iff _ _).mpr h
  have hstamp : (⟨f.nodeId, epoch2020, Snowflake.allSet, 0⟩ : Snowflake).stamp =
      (⟨f'.nodeId, epoch2020, Snowflake.allSet, 0⟩ : Snowflake).stamp :=
    Snowflake.stamp_allSet rfl rfl rfl hbits
  exact ⟨_, _, hids f, by rw [hids f', hstamp]⟩

/-- With clocks that do not go back, the generators of two processes never return the same id
exactly when their node ids, the configured ones plus `SEQ`, differ modulo 1024. -/
theorem ids_disjoint_iff {conf conf' f f' : CoreEnv} {seq seq' : Option Bytes} (h : conf.load seq = .ok f)
    (h' : conf'.load seq' = .ok f') :
    (∀ clock clock' : Nat → Int64, (∀ i, clock i ≤ clock (i + 1)) → (∀ i, clock' i ≤ clock' (i + 1)) →
      ∀ n n' k k', (Snowflake.ids n f.start (Snowflake.readings clock k)).Disjoint
        (Snowflake.ids n' f'.start (Snowflake.readings clock' k'))) ↔
      (conf.nodeId.toInt + seqValue seq) % 1024 ≠ (conf'.nodeId.toInt + seqValue seq') % 1024 := by
  rw [← CoreEnv.load_nodeId h, ← CoreEnv.load_nodeId h']
  constructor
  · intro hdisj heq
    obtain ⟨now, x, hx, hx'⟩ := exists_common_id heq
    have hmono : ∀ i : Nat, (fun _ : Nat => now) i ≤ (fun _ : Nat => now) (i + 1) :=
      fun _ => Int64.le_refl now
    have hread : Snowflake.readings (fun _ => now) 1 = [now] := rfl
    have hone := hdisj (fun _ => now) (fun _ => now) hmono hmono 1 1 1 1
    rw [hread, hx, hx'] at hone
    exact hone List.mem_cons_self List.mem_cons_self
  · intro hne clock clock' _ _ n n' k k' x hx hx'
    have hz : ∀ f : CoreEnv, 0 ≤ f.start.sequence.toInt := fun _ => le_refl (0 : Int)
    have hbits : f.nodeId.toBitVec.setWidth 10 = f'.nodeId.toBitVec.setWidth 10 :=
      (Snowflake.nodeBits_of_mem_ids (hz f) hx).symm.trans (Snowflake.nodeBits_of_mem_ids (hz f') hx')
    exact hne ((Snowflake.setWidth_toBitVec_eq_iff _ _).mp hbits)

section Services

def adminConf : CoreEnv := ⟨utf8 "admin", utf8 "admin.1", 1⟩
def postofficeConf : CoreEnv := ⟨utf8 "postoffice", utf8 "postoffice.3", 3⟩

theorem ids_disjoint_postoffices :
    ∃ f f', postofficeConf.load (some (utf8 "0")) = .ok f ∧ postofficeConf.load (some (utf8 "1")) = .ok f' ∧
      (Snowflake.ids 2 f.start (Snowflake.readings (fun _ => 1577836800005) 2)).Disjoint
        (Snowflake.ids 2 f'.start (Snowflake.readings (fun _ => 1577836800005) 2)) := by
  have h : postofficeConf.load (some (utf8 "0")) = .ok ⟨utf8 "postoffice", utf8 "postoffice.3", 3⟩ := by
    decide +kernel
  have h' : postofficeConf.load (some (utf8 "1")) = .ok ⟨utf8 "postoffice", utf8 "postoffice.4", 4⟩ := by
    decide +kernel
  have hne : (postofficeConf.nodeId.toInt + seqValue (some (utf8 "0"))) % 1024 ≠
      (postofficeConf.nodeId.toInt + seqValue (some (utf8 "1"))) % 1024 := by decide +kernel
  have hmono : ∀ (now : Int64) (i : Nat), (fun _ : Nat => now) i ≤ (fun _ : Nat => now) (i + 1) :=
    fun now _ => Int64.le_refl now
  have hdisj := (ids_disjoint_iff h h').mpr hne (fun _ => 1577836800005) (fun _ => 1577836800005)
    (hmono _) (hmono _) 2 2 2 2
  exact ⟨_, _, h, h', hdisj⟩

/-- The admin service of the host with `SEQ` 2 and the postoffice of the host with `SEQ` 0 are both
node 3, and return the same id in the same millisecond. -/
theorem admin_and_postoffice_share_an_id :
    ∃ f f', adminConf.load (some (utf8 "2")) = .ok f ∧ postofficeConf.load (some (utf8 "0")) = .ok f' ∧
      f.nodeId = 3 ∧ f'.nodeId = 3 ∧
      ∃ id, id ∈ Snowflake.ids 1 f.start (Snowflake.readings (fun _ => 1577836800005) 1) ∧
        id ∈ Snowflake.ids 1 f'.start (Snowflake.readings (fun _ => 1577836800005) 1) :=
  ⟨⟨utf8 "admin", utf8 "admin.3", 3⟩, ⟨utf8 "postoffice", utf8 "postoffice.3", 3⟩, by decide +kernel,
    by decide +kernel, rfl, rfl, 20983808, by decide +kernel, by decide +kernel⟩

end Services

end Tarantula
