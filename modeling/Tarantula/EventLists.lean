import Tarantula.Publish
import Tarantula.Runs

/-! Histories of publishing on a ring that stays as it is, and what a list of a class of
events finds after them. -/

namespace Tarantula

/-- The stores of the nodes, and the records and values of the events that were
acknowledged and have reached all replicas. -/
structure Board where
  stores : String → Db
  acked : List (Address × Bytes)

/-- A call of `runPublish`, and what becomes of the calls that it makes. -/
structure PublishCall where
  env : Env
  now : UInt64
  topic : Topic

namespace LocalData

theorem queryLoop_eq (filter : Bytes → Bytes → Bool) (rows : List (Bytes × Bytes)) (offset : Int) (n : Nat)
    (dset : List (Bytes × Bytes)) : queryLoop filter rows offset (n + 1) dset =
      dset ++ (((rows.drop offset.toNat).filter fun row => filter (row.1.drop 12) row.2).take (n + 1)).map
        fun row => (row.1.drop 12, row.2) := by
  induction rows generalizing offset n dset with
  | nil => simp [queryLoop]
  | cons row rows ih =>
    rw [queryLoop]
    by_cases ho : 0 < offset
    · obtain ⟨k, rfl⟩ : ∃ k : Nat, offset = k + 1 := ⟨(offset - 1).toNat, by omega⟩
      rw [if_pos ho, Int.add_sub_cancel, ih]
      rfl
    · have hzero : offset.toNat = 0 := by omega
      rw [if_neg ho, hzero, List.drop_zero]
      cases hf : filter (row.1.drop 12) row.2 with
      | false =>
        have hlimit : (n : Int) + 1 ≠ 0 := by omega
        simp [hf, hlimit, ih, hzero]
      | true =>
        cases n with
        | zero => simp [hf]
        | succ n =>
          have hlimit : (n : Int) + 1 ≠ 0 := by omega
          simp [hf, hlimit, ih, hzero]

theorem queryLoop_take (rows : List (Bytes × Bytes)) {offset : Int} (ho : offset ≤ 0) (n : Nat)
    (dset : List (Bytes × Bytes)) : queryLoop (fun _ _ => true) rows offset (n + 1) dset =
      dset ++ (rows.take (n + 1)).map fun row => (row.1.drop 12, row.2) := by
  have hzero : offset.toNat = 0 := by omega
  simp [queryLoop_eq, hzero]

theorem queryLoop_all {rows : List (Bytes × Bytes)} {offset limit : Int} (ho : offset ≤ 0)
    (hl : rows.length ≤ limit) (dset : List (Bytes × Bytes)) :
    queryLoop (fun _ _ => true) rows offset limit dset =
      dset ++ rows.map fun row => (row.1.drop 12, row.2) := by
  cases rows with
  | nil => simp [queryLoop]
  | cons row rows =>
    rw [List.length_cons] at hl
    obtain ⟨n, rfl⟩ : ∃ n : Nat, limit = n + 1 := ⟨(limit - 1).toNat, by omega⟩
    rw [queryLoop_take _ ho, List.take_of_length_le (by rw [List.length_cons]; omega)]

theorem mem_classRows {db : Db} {a : Address} {rev : UInt64} {v : Bytes} (h : db[a.data rev]? = some v) :
    (a.data rev, v) ∈ classRows db a.factoryId a.classId := by
  refine List.mem_filter.mpr ⟨Std.ExtTreeMap.mem_toList_iff_getElem?_eq_some.mpr h, ?_⟩
  refine List.isPrefixOf_iff_prefix.mpr ⟨beBytes 4 (Int32.ofNat a.key.length).toUInt32.toNat ++
    (a.key ++ beBytes 8 rev.toNat), ?_⟩
  rw [List.append_assoc]
  rfl

theorem data_drop (a : Address) (rev : UInt64) : (a.data rev).drop 12 = a.key ++ beBytes 8 rev.toNat := by
  simp only [Address.data, dataBytes, ← List.append_assoc]
  rw [List.append_assoc _ a.key]
  exact List.drop_left' (by simp)

theorem mem_query {db : Db} {q : Query} {a : Address} {rev : UInt64} {v : Bytes}
    (h : db[a.data rev]? = some v) (hf : a.factoryId = q.factoryId) (hc : a.classId = q.classId)
    (ho : q.offset ≤ 0) (hl : (classRows db q.factoryId q.classId).length ≤ queryLimit q) :
    (a.key ++ beBytes 8 rev.toNat, v) ∈ query db (fun _ _ => true) q := by
  have hmem := mem_classRows h
  rw [hf, hc] at hmem
  rw [query, queryLoop_all ho hl, List.nil_append]
  exact List.mem_map.mpr ⟨_, hmem, by rw [data_drop]⟩

end LocalData

namespace NodeRing

variable {m : NodeRing}

theorem mem_replicas_of_few (hm : m.WellFormed) (hfew : hosts m.nodes ≤ replicaMax)
    (hip : ∀ n ∈ m.nodes, ∀ n' ∈ m.nodes, n.ip = n'.ip → n.rpcEndpoint = n'.rpcEndpoint)
    {p : Node} (hp : p ∈ m.nodes) (t : UInt32) :
    ∃ ring, m.keyRing t replicaMax = some ring ∧ p.rpcEndpoint ∈ ring.map (·.rpcEndpoint) := by
  obtain ⟨ring, hring, hips⟩ := keyRing_full hm.sorted (List.ne_nil_of_mem hp) hm.num
    (show 0 < replicaMax by decide) t
  refine ⟨ring, hring, ?_⟩
  have hlen : (m.full t).length = hosts m.nodes := by rw [full_eq_met hm.sorted, met_length]
  rw [List.take_of_length_le (by rw [hlen, hm.num]; omega), full_eq_met hm.sorted] at hips
  have hmet : p.ip ∈ met m.nodes t := by
    rw [met, List.mem_eraseDups]
    exact List.mem_map_of_mem (mem_clockwise.mpr hp)
  obtain ⟨n, hn, he⟩ := List.mem_map.mp (hips ▸ hmet)
  have hend := hip n (keyRing_mem hm.sorted hring n hn) p hp he
  exact List.mem_map.mpr ⟨n, hn, hend⟩

end NodeRing

namespace Board

section Step

variable (registered : String → Bool) (marshal : Topic → Option Bytes) (hash32 : Bytes → UInt32)
  (m : NodeRing)

def initial : Board := ⟨fun _ => ∅, []⟩

def event (e : PublishCall) : Option (Address × Bytes) :=
  ((e.topic.stamped e.now).data marshal).map fun d =>
    (⟨hash32 d.key, d.header.factoryId, d.header.classId, d.key⟩, d.value)

def Replicated (stores : String → Db) (ev : Address × Bytes) : Prop :=
  ∀ n ∈ Topic.replicas hash32 m ev.1.key, (stores n.rpcEndpoint)[ev.1.data 1]? = some ev.2

instance (stores : String → Db) (ev : Address × Bytes) : Decidable (Replicated hash32 m stores ev) :=
  inferInstanceAs (Decidable (∀ _ ∈ _, _))

def step (b : Board) (e : PublishCall) : Option Board :=
  (Topic.runPublish registered marshal hash32 m e.env e.now e.topic b.stores).map fun (stores, ok) =>
    ⟨stores, b.acked ++
      if ok then ((event marshal hash32 e).filter (Replicated hash32 m stores ·)).toList else []⟩

def Live (_ : Board) (e : PublishCall) : Prop := e.topic.header.state ≠ dataStateDeleted

instance (b : Board) (e : PublishCall) : Decidable (Live b e) := inferInstanceAs (Decidable (_ ≠ _))

end Step

variable {registered : String → Bool} {marshal : Topic → Option Bytes} {hash32 : Bytes → UInt32}
  {m : NodeRing} {b b' : Board}

structure Sound (hash32 : Bytes → UInt32) (m : NodeRing) (b : Board) : Prop where
  archive : ∀ e, Archive hash32 (b.stores e)
  placed : ∀ e (a : Address), (b.stores e)[a.index]? ≠ none →
    e ∈ (Topic.replicas hash32 m a.key).map (·.rpcEndpoint)
  acked : ∀ ev ∈ b.acked, ev.1.Fits ∧ ev.1.ringPrefix = hash32 ev.1.key ∧ Replicated hash32 m b.stores ev

theorem Sound.initial : Sound hash32 m initial := by
  refine ⟨fun _ => .empty, fun e a h => ?_, fun ev h => ?_⟩
  · simp [Board.initial] at h
  · cases h

theorem runPublish_cases {e : PublishCall} {stores : String → Db} {ok : Bool} (hs : Sound hash32 m b)
    (hl : e.topic.header.state ≠ dataStateDeleted)
    (h : Topic.runPublish registered marshal hash32 m e.env e.now e.topic b.stores = some (stores, ok)) :
    stores = b.stores ∧ ok = false ∨ ∃ w ids, stores = w.stores ∧ Filing hash32 m b.stores ids w ∧
      (ok = true → ∀ ev ∈ event marshal hash32 e, ev.1.Fits ∧ ev.1.ringPrefix = hash32 ev.1.key) := by
  unfold Topic.runPublish at h
  split at h
  · cases h
    exact .inl ⟨rfl, rfl⟩
  · cases hd : (e.topic.stamped e.now).data marshal with
    | none =>
      rw [hd] at h
      cases h
      exact .inl ⟨rfl, rfl⟩
    | some d =>
      rw [hd] at h
      obtain ⟨⟨w, resp⟩, hrun, he⟩ := Option.map_eq_some_iff.mp h
      cases he
      obtain ⟨hkey, hheader⟩ := Topic.data_eq hd
      have hkey' : d.key = e.topic.key := hkey
      have hstate : d.header.state = e.topic.header.state := by rw [hheader]; rfl
      rw [← hkey'] at hrun
      refine .inr ⟨w, d.header, rfl, ?_, fun hok ev hev => ?_⟩
      · have hstart : Filing hash32 m b.stores d.header ⟨b.stores, d.header⟩ :=
          ⟨⟨rfl, rfl⟩, hstate ▸ hl, hs.archive, hs.placed, fun _ _ _ hk => hk⟩
        exact Env.createLoop_invariant (I := Filing hash32 m b.stores d.header)
          (fun i j w n hn hw => Filing.call _ ⟨hash32 d.key, d⟩ hw rfl rfl hn i j) hstart hrun
      · obtain rfl : _ = ev := by simpa [event, hd] using hev
        refine ⟨?_, rfl⟩
        by_contra hf
        have hunfit : ¬ (Request.address ⟨hash32 d.key, d⟩).Fits := hf
        have hfailed := Env.createLoop_failed (Env.clientCreate_unfit hunfit) hrun
        rw [hfailed] at hok
        cases hok

theorem Sound.step {e : PublishCall} (hs : Sound hash32 m b) (hl : Live b e)
    (h : step registered marshal hash32 m b e = some b') : Sound hash32 m b' := by
  obtain ⟨⟨stores, ok⟩, hrun, rfl⟩ := Option.map_eq_some_iff.mp h
  rcases runPublish_cases hs hl hrun with ⟨rfl, rfl⟩ | ⟨w, ids, rfl, hw, hok⟩
  · refine ⟨hs.archive, hs.placed, fun ev hev => hs.acked ev ?_⟩
    simpa using hev
  · refine ⟨hw.archive, hw.placed, fun ev hev => ?_⟩
    rcases List.mem_append.mp hev with hev | hev
    · obtain ⟨hf, hp, hrep⟩ := hs.acked ev hev
      exact ⟨hf, hp, fun n hn => hw.keeps _ _ _ (hrep n hn)⟩
    · split at hev
      · next hk =>
        obtain ⟨hmem, hrep⟩ := Option.filter_eq_some_iff.mp (Option.mem_toList.mp hev)
        obtain ⟨hf, hp⟩ := hok hk ev hmem
        exact ⟨hf, hp, of_decide_eq_true hrep⟩
      · cases hev

theorem sound_of_reaches (h : Reaches (step registered marshal hash32 m) Live initial b) :
    Sound hash32 m b :=
  h.invariant .initial fun _ _ _ hs hl he => hs.step hl he

def HeldAt (b : Board) (q : Query) (endpoint : String) : Prop :=
  ∀ ev ∈ b.acked, ev.1.factoryId = q.factoryId → ev.1.classId = q.classId →
    (b.stores endpoint)[ev.1.data 1]? = some ev.2

/-- A node has an acknowledged event exactly if it is one of the replicas of its key. -/
theorem Sound.held_iff (hs : Sound hash32 m b) {ev : Address × Bytes} (hev : ev ∈ b.acked)
    (endpoint : String) : (b.stores endpoint)[ev.1.data 1]? = some ev.2 ↔
      endpoint ∈ (Topic.replicas hash32 m ev.1.key).map (·.rpcEndpoint) := by
  obtain ⟨hf, hp, hrep⟩ := hs.acked ev hev
  constructor
  · intro h
    exact hs.placed endpoint ev.1 ((hs.archive endpoint).data ev.1 1 ev.2 hf hp h)
  · intro h
    obtain ⟨n, hn, rfl⟩ := List.mem_map.mp h
    exact hrep n hn

/-- The node that a list reads has all acknowledged events of the class exactly if it is
among the replicas of each of their keys; then a list that accepts all and has room for
all finds them. So it is on a ring of up to seven hosts. -/
theorem list_reads_published_iff (hm : m.WellFormed) (hne : m.nodes ≠ [])
    (h : Reaches (step registered marshal hash32 m) Live initial b) (q : Query) :
    ∃ ringNode rest, m.keyRing (hash32 (utf8 q.topic)) replicaMax = some (ringNode :: rest) ∧
      (b.HeldAt q ringNode.rpcEndpoint ↔
        ∀ ev ∈ b.acked, ev.1.factoryId = q.factoryId → ev.1.classId = q.classId →
          ringNode.rpcEndpoint ∈ (Topic.replicas hash32 m ev.1.key).map (·.rpcEndpoint)) ∧
      (b.HeldAt q ringNode.rpcEndpoint → q.offset ≤ 0 →
        (LocalData.classRows (b.stores ringNode.rpcEndpoint) q.factoryId q.classId).length ≤
          LocalData.queryLimit q →
        ∃ found, runQuery hash32 m (fun _ _ => true) q b.stores = some found ∧
          ∀ ev ∈ b.acked, ev.1.factoryId = q.factoryId → ev.1.classId = q.classId →
            (ev.1.key ++ beBytes 8 1, ev.2) ∈ found) ∧
      (NodeRing.hosts m.nodes ≤ replicaMax →
        (∀ n ∈ m.nodes, ∀ n' ∈ m.nodes, n.ip = n'.ip → n.rpcEndpoint = n'.rpcEndpoint) →
        b.HeldAt q ringNode.rpcEndpoint) := by
  have hs := sound_of_reaches h
  obtain ⟨ring, hring, -⟩ :=
    NodeRing.keyRing_full hm.sorted hne hm.num (show 0 < replicaMax by decide) (hash32 (utf8 q.topic))
  obtain ⟨ringNode, rest, rfl, -⟩ := NodeRing.keyRing_head hring
  refine ⟨ringNode, rest, hring, ?_, fun hheld ho hl => ?_, fun hfew hip ev hev _ _ => ?_⟩
  · constructor
    · intro hheld ev hev hf hc
      exact (hs.held_iff hev _).mp (hheld ev hev hf hc)
    · intro hrep ev hev hf hc
      exact (hs.held_iff hev _).mpr (hrep ev hev hf hc)
  · refine ⟨_, by rw [runQuery, hring]; rfl, fun ev hev hf hc => ?_⟩
    have hmem := LocalData.mem_query (hheld ev hev hf hc) hf hc ho hl
    rwa [show (1 : UInt64).toNat = 1 from rfl] at hmem
  · have hmem := NodeRing.keyRing_mem hm.sorted hring ringNode (List.mem_cons_self ..)
    obtain ⟨nodes, hnodes, hin⟩ := NodeRing.mem_replicas_of_few hm hfew hip hmem (hash32 ev.1.key)
    refine (hs.held_iff hev _).mpr ?_
    rw [Topic.replicas, hnodes]
    exact hin

section Samples

open MemberHashRing

/-- The calls of `nodeA`, all of which arrive. -/
def samplePublisher : Env :=
  ⟨nodeA.rpcEndpoint, Murmur3.sum32, fun _ => [], fun _ _ => .up,
    fun i j => 1000 + 10 * UInt64.ofNat i + UInt64.ofNat j, id, List.Perm.refl⟩

def samplePublish (key : Bytes) : PublishCall :=
  ⟨samplePublisher, 1000, ⟨"log", key, ⟨0, 1, 1, 0, 0, false, 0⟩, [1]⟩⟩

/-- All topics are registered, and a topic is marshalled to its body. -/
def sampleStep (m : NodeRing) : Board → PublishCall → Option Board :=
  step (fun _ => true) (fun topic => some topic.body) Murmur3.sum32 m

def sampleQuery : Query := ⟨"log", 1, 1, 100, 0⟩

theorem list_reads_published_iff_sample :
    ∃ b, Reaches (sampleStep sampleRing.toNodeRing) Live initial b ∧
      b.acked = [(⟨Murmur3.sum32 [47], 1, 1, [47]⟩, [1])] ∧
      ∃ ringNode rest, sampleRing.keyRing (Murmur3.sum32 (utf8 "log")) replicaMax =
        some (ringNode :: rest) ∧ b.HeldAt sampleQuery ringNode.rpcEndpoint := by
  obtain ⟨b, hb, hacked⟩ := exists_reaches_of_checkedRun (sampleStep sampleRing.toNodeRing) Live
    (fun b => b.acked = [(⟨Murmur3.sum32 [47], 1, 1, [47]⟩, [1])]) initial [samplePublish [47]]
    (by decide +kernel)
  obtain ⟨ringNode, rest, hring, -, -, hfew⟩ :=
    list_reads_published_iff sampleRing_wellFormed (by decide +kernel) hb sampleQuery
  exact ⟨b, hb, hacked, ringNode, rest, hring, hfew (by decide +kernel) (by decide +kernel)⟩

def ringOfEight : MemberHashRing :=
  ofMembers Murmur3.sum32 ((List.range 8).map fun i =>
    sampleMember ("node-" ++ toString i) ("10.0.0." ++ toString i))

/-- The event with the key `/` reaches seven of the eight members, and the list asks the
eighth one. -/
theorem list_misses_published_event :
    ringOfEight.WellFormed ∧ NodeRing.hosts ringOfEight.nodes = 8 ∧
    ∃ b, Reaches (sampleStep ringOfEight.toNodeRing) Live initial b ∧
      b.acked = [(⟨Murmur3.sum32 [47], 1, 1, [47]⟩, [1])] ∧
      runQuery Murmur3.sum32 ringOfEight.toNodeRing (fun _ _ => true) sampleQuery b.stores = some [] := by
  refine ⟨by decide +kernel, by decide +kernel, ?_⟩
  exact exists_reaches_of_checkedRun (sampleStep ringOfEight.toNodeRing) Live
    (fun b => b.acked = [(⟨Murmur3.sum32 [47], 1, 1, [47]⟩, [1])] ∧
      runQuery Murmur3.sum32 ringOfEight.toNodeRing (fun _ _ => true) sampleQuery b.stores = some [])
    initial [samplePublish [47]] (by decide +kernel)

end Samples

end Board

end Tarantula
