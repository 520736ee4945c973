import Tarantula.FieldCodec
import Tarantula.IssuedTasks
import Tarantula.RecordFrame
import Tarantula.TaskPersistence

/-! `recoverTasks` of a node: it scans its own store for tasks, loads each from the first node of its ring,
and hands the unfinished ones that it owns to the coordinator. The source has it ready to be called: the
call at the start of a node is commented out. -/

namespace Tarantula

namespace LocalData

/-- What the scan makes of an index row: the id of a task that is not deleted. `none` is a panic of the
import. -/
def scanRow (row : Bytes × Bytes) : Option (Option UInt64) :=
  match KeyIndex.importRow ⟨0, [], default⟩ row.1 row.2 pullBufferSize with
  | .error .crash => none
  | .error .error => some none
  | .ok ki =>
    if ki.header.factoryId ≠ taskFactoryId ∨ ki.header.classId ≠ taskClassId then some none
    else if ki.header.state = dataStateDeleted then some none
    else if ki.key.length ≠ 8 then some none
    else some ((readUInt64 ki.key).map (·.1))

def scanRows : List (Bytes × Bytes) → Option (List UInt64)
  | [] => some []
  | row :: rows => (scanRow row).bind fun id => (scanRows rows).map (id.toList ++ ·)

def scanLocalTaskIds (db : Db) : Option (List UInt64) := scanRows (indexRows db)

end LocalData

def taskKey (taskId : UInt64) : Bytes := beBytes 8 taskId.toNat

def taskAddress (ringPrefix : UInt32) (taskId : UInt64) : Address :=
  ⟨ringPrefix, taskFactoryId, taskClassId, taskKey taskId⟩

def taskRequest (hash32 : Bytes → UInt32) (taskId : UInt64) : Request :=
  ⟨hash32 (taskKey taskId), ⟨taskKey taskId, [], ⟨0, taskFactoryId, taskClassId, 0, 0, false, 0⟩⟩⟩

/-- `NewTaskResource` reads the Meta of the validator and of the first job. -/
def Wire.Task.Readable {μ : Type} (task : Wire.Task μ) : Prop :=
  (∀ job ∈ task.validator, job.mt.isSome) ∧ ∃ job ∈ task.jobs.head?, job.mt.isSome

instance {μ : Type} (task : Wire.Task μ) : Decidable task.Readable :=
  inferInstanceAs (Decidable (_ ∧ _))

/-- What the recoveries of the nodes meet, by the endpoint of the node: the store that is scanned, the
answers of the ring to the two lookups for the `i`-th task, the own store at that time, and what the
other nodes answer. -/
structure RecoveryEnv (μ : Type) where
  hash32 : Bytes → UInt32
  unmarshal : Bytes → Option (Wire.Task μ)
  shutdown : String → Bool
  scanned : String → Db
  loadRing : String → Nat → UInt32 → List Node
  ownerRing : String → Nat → UInt32 → List Node
  store : String → Nat → Db
  remote : String → Nat → Node → Request → Reply

namespace RecoveryEnv

section Source

variable {μ : Type} (env : RecoveryEnv μ) (self : String)

def runGet (i : Nat) (req : Request) : Option Reply :=
  let rt := if 0 < req.ringPrefix then req.ringPrefix else env.hash32 req.data.key
  match env.loadRing self i rt with
  | [] => none
  | ringNode :: _ =>
    if ringNode.rpcEndpoint = self then some (DataService.get (env.store self i) req)
    else some (env.remote self i ringNode req)

/-- The Meta of a task that was found, as `load` leaves it. `none` is a panic. -/
def loaded (taskId : UInt64) (task : Wire.Task μ) : Option Meta :=
  match task.mt with
  | none => none
  | some mt =>
    let mt := if mt.ringPrefix = 0 then { mt with ringPrefix := (env.hash32 (taskKey taskId)).toNat } else mt
    if task.Readable then some mt else none

/-- What `load` makes of the answer, where `none` inside is an error and `none` a panic. -/
def found (taskId : UInt64) (reply : Reply) : Option (Option Meta) :=
  if reply.err.isSome then some none
  else
    match reply.resp.bind (·.data.head?) with
    | none => none
    | some data =>
      match env.unmarshal data.value with
      | none => some none
      | some task => (env.loaded taskId task).map some

def load (i : Nat) (taskId : UInt64) : Option (Option Meta) :=
  (env.runGet self i (taskRequest env.hash32 taskId)).bind (env.found taskId)

def isLocalRingOwner (i : Nat) (ringPrefix : UInt32) : Bool :=
  match env.ownerRing self i ringPrefix with
  | [] => false
  | node :: _ => node.rpcEndpoint = self

/-- The body of the loop: whether the task is handed over. -/
def recovers (i : Nat) (taskId : UInt64) : Option Bool :=
  (env.load self i taskId).map fun
    | none => false
    | some mt => mt.state ≠ .finished && env.isLocalRingOwner self i (UInt32.ofNat mt.ringPrefix)

def recoverLoop : Nat → List UInt64 → Option (List UInt64)
  | _, [] => some []
  | i, taskId :: taskIds =>
    (env.recovers self i taskId).bind fun handed =>
      (recoverLoop (i + 1) taskIds).map fun rest => if handed then taskId :: rest else rest

/-- The ids that go to `Reload`, in this order. -/
def recoverTasks : Option (List UInt64) :=
  if env.shutdown self then some []
  else (LocalData.scanLocalTaskIds (env.scanned self)).bind (env.recoverLoop self 0)

end Source

end RecoveryEnv

namespace LocalData

/-- The record is a task that is not deleted. -/
def IsTask (a : Address) (d : Header) : Prop :=
  a.factoryId = taskFactoryId ∧ a.classId = taskClassId ∧ a.key.length = 8 ∧ d.state ≠ dataStateDeleted

instance (a : Address) (d : Header) : Decidable (IsTask a d) := inferInstanceAs (Decidable (_ ∧ _))

theorem readUInt64_key {key : Bytes} (h : key.length = 8) :
    (readUInt64 key).map (·.1) = some (UInt64.ofNat (beNat key)) := by
  rw [readUInt64, getBytes, if_pos h.ge, Option.map_map]
  simp [← h]

theorem scanRow_eq {a : Address} (hf : a.Fits) (d : Header) :
    scanRow (a.index, rowBytes d) =
      some (if IsTask a d then some (UInt64.ofNat (beNat a.key)) else none) := by
  rw [scanRow, KeyIndex.importRow_eq hf d (by decide)]
  by_cases ht : IsTask a d
  · obtain ⟨hfid, hcid, hkey, hst⟩ := ht
    have hsize : 30 + a.key.length ≤ pullBufferSize := by
      rw [hkey]
      decide
    rw [if_pos hsize, if_pos ⟨hfid, hcid, hkey, hst⟩]
    simp only [hfid, hcid, hkey, hst, ne_eq, not_true_eq_false, or_self, if_false, readUInt64_key hkey]
  · rw [if_neg ht]
    by_cases hsize : 30 + a.key.length ≤ pullBufferSize
    · rw [if_pos hsize]
      dsimp only
      split_ifs with hids hst hkey
      · rfl
      · rfl
      · rfl
      · rw [not_or, not_not, not_not] at hids
        exact absurd ⟨hids.1, hids.2, not_not.mp hkey, hst⟩ ht
    · rw [if_neg hsize]

theorem scanRows_eq {rows : List (Bytes × Bytes)} (h : ∀ row ∈ rows, (scanRow row).isSome) :
    scanRows rows = some (rows.filterMap fun row => (scanRow row).join) := by
  induction rows with
  | nil => rfl
  | cons row rows ih =>
    rw [List.forall_mem_cons] at h
    obtain ⟨id, hid⟩ := Option.isSome_iff_exists.mp h.1
    rw [scanRows, ih h.2, hid, List.filterMap_cons, hid]
    cases id <;> rfl

section Scan

variable {db : Db}

theorem scanRow_isSome (hrows : OnlyRows db) {row : Bytes × Bytes} (h : row ∈ indexRows db) :
    (scanRow row).isSome := by
  obtain ⟨a, d, hf, -, rfl⟩ := index_of_mem_indexRows hrows h
  rw [scanRow_eq hf d]
  rfl

theorem scanRow_some (hrows : OnlyRows db) {row : Bytes × Bytes} (h : row ∈ indexRows db) {t : UInt64}
    (ht : (scanRow row).join = some t) : ∃ p d, row = ((taskAddress p t).index, rowBytes d) ∧
      db[(taskAddress p t).index]? = some (rowBytes d) ∧ d.state ≠ dataStateDeleted := by
  obtain ⟨a, d, hf, hget, rfl⟩ := index_of_mem_indexRows hrows h
  rw [scanRow_eq hf d, Option.join_some] at ht
  split at ht
  · next htask =>
    obtain ⟨hfid, hcid, hkey, hst⟩ := htask
    obtain rfl := Option.some.inj ht
    have hlt := beNat_lt a.key
    have hsame : taskKey (UInt64.ofNat (beNat a.key)) = a.key := by
      rw [hkey] at hlt
      rw [taskKey, UInt64.toNat_ofNat_of_lt' hlt, ← hkey, beBytes_beNat]
    have ha : taskAddress a.ringPrefix (UInt64.ofNat (beNat a.key)) = a := by
      rw [taskAddress, hsame, ← hfid, ← hcid]
    exact ⟨a.ringPrefix, d, by rw [ha], by rw [ha, hget], hst⟩
  · cases ht

theorem scanRow_task {p : UInt32} {t : UInt64} {d : Header} (hst : d.state ≠ dataStateDeleted) :
    scanRow ((taskAddress p t).index, rowBytes d) = some (some t) := by
  have hlen : (taskKey t).length = 8 := length_beBytes 8 _
  have hf : (taskAddress p t).Fits := by
    show 30 + (taskKey t).length ≤ compositKeyMax
    rw [hlen]
    decide
  rw [scanRow_eq hf d, if_pos ⟨rfl, rfl, hlen, hst⟩]
  have hlt : t.toNat < 256 ^ 8 := t.toNat_lt
  show some (some (UInt64.ofNat (beNat (beBytes 8 t.toNat)))) = some (some t)
  rw [beNat_beBytes, Nat.mod_eq_of_lt hlt, UInt64.ofNat_toNat]

/-- The scan answers with the tasks that are not deleted, one for each prefix. -/
theorem scanLocalTaskIds_eq (hrows : OnlyRows db) :
    scanLocalTaskIds db = some ((indexRows db).filterMap fun row => (scanRow row).join) :=
  scanRows_eq fun _ h => scanRow_isSome hrows h

theorem mem_scan_iff (hrows : OnlyRows db) {t : UInt64} :
    t ∈ (indexRows db).filterMap (fun row => (scanRow row).join) ↔ ∃ p d,
      db[(taskAddress p t).index]? = some (rowBytes d) ∧ d.state ≠ dataStateDeleted := by
  rw [List.mem_filterMap]
  constructor
  · rintro ⟨row, hrow, ht⟩
    obtain ⟨p, d, -, hget, hst⟩ := scanRow_some hrows hrow ht
    exact ⟨p, d, hget, hst⟩
  · rintro ⟨p, d, hget, hst⟩
    exact ⟨_, index_mem_indexRows hget, by rw [scanRow_task hst, Option.join_some]⟩

theorem nodup_scan (hrows : OnlyRows db) {hash32 : Bytes → UInt32}
    (hone : ∀ p t v, db[(taskAddress p t).index]? = some v → p = hash32 (taskKey t)) :
    ((indexRows db).filterMap fun row => (scanRow row).join).Nodup := by
  have hkeys : (indexRows db).Pairwise fun row row' => row.1 ≠ row'.1 := by
    refine List.Pairwise.filter _ (Std.ExtTreeMap.distinct_keys_toList.imp fun h heq => h ?_)
    rw [heq]
    exact Std.ReflCmp.compare_self
  refine List.pairwise_filterMap.mpr (hkeys.imp_of_mem fun hrow hrow' hne t ht t' ht' heq => hne ?_)
  subst heq
  obtain ⟨p, d, rfl, hget, -⟩ := scanRow_some hrows hrow ht
  obtain ⟨p', d', rfl, hget', -⟩ := scanRow_some hrows hrow' ht'
  rw [hone p t _ hget, hone p' t _ hget']

end Scan

theorem row_of_get (hrows : OnlyRows db) {hash32 : Bytes → UInt32} {t : UInt64} {data : Data}
    (h : get db (taskRequest hash32 t) = .ok data) : ∃ d,
      db[(taskAddress (hash32 (taskKey t)) t).index]? = some (rowBytes d) ∧ d.state ≠ dataStateDeleted := by
  cases hget : db[(taskAddress (hash32 (taskKey t)) t).index]? with
  | none => exact absurd h (get_of_none hget)
  | some v =>
    obtain ⟨hf, d, rfl⟩ := hrows.index_row hget
    refine ⟨d, rfl, fun hst => ?_⟩
    rw [get_of_row (get_fits h) hget, if_pos hst] at h
    cases h

end LocalData

namespace RecoveryEnv

variable {μ : Type} {env : RecoveryEnv μ} {ring : UInt32 → List Node} {stores : String → Db}

/-- The ring and the stores stay as they are while the nodes recover, and a node that answers another
one answers from its store. -/
structure Quiet (env : RecoveryEnv μ) (ring : UInt32 → List Node) (stores : String → Db) : Prop where
  running : ∀ self, env.shutdown self = false
  scanned : env.scanned = stores
  loadRing : ∀ self i, env.loadRing self i = ring
  ownerRing : ∀ self i, env.ownerRing self i = ring
  store : ∀ self i, env.store self i = stores self
  remote : ∀ self i node req, (env.remote self i node req).err.isSome ∨
    env.remote self i node req = DataService.get (stores node.rpcEndpoint) req

def stored (env : RecoveryEnv μ) (db : Db) (t : UInt64) : Option (Wire.Task μ) :=
  match LocalData.get db (taskRequest env.hash32 t) with
  | .error _ => none
  | .ok data => env.unmarshal data.value

/-- The tasks of the store have their Metas, with the token of the key for a prefix, or none. -/
def WellStored (env : RecoveryEnv μ) (db : Db) : Prop :=
  ∀ t task, env.stored db t = some task → task.Readable ∧ ∃ mt, task.mt = some mt ∧
    (mt.ringPrefix = 0 ∨ mt.ringPrefix = (env.hash32 (taskKey t)).toNat)

def Unfinished (env : RecoveryEnv μ) (db : Db) (t : UInt64) : Prop :=
  ∃ task mt, env.stored db t = some task ∧ task.mt = some mt ∧ mt.state ≠ .finished

def Owns (ring : UInt32 → List Node) (self : String) (token : UInt32) : Prop :=
  (ring token).head?.map (·.rpcEndpoint) = some self

theorem found_get (db : Db) (t : UInt64) : env.found t (DataService.get db (taskRequest env.hash32 t)) =
    match env.stored db t with
    | none => some none
    | some task => (env.loaded t task).map some := by
  unfold stored DataService.get
  cases LocalData.get db (taskRequest env.hash32 t) <;> rfl

theorem get_of_stored {db : Db} {t : UInt64} {task : Wire.Task μ} (h : env.stored db t = some task) :
    ∃ data, LocalData.get db (taskRequest env.hash32 t) = .ok data ∧
      env.unmarshal data.value = some task := by
  unfold stored at h
  split at h
  · cases h
  · next data hget => exact ⟨data, hget, h⟩

theorem loaded_eq {db : Db} (hw : env.WellStored db) {t : UInt64} {task : Wire.Task μ}
    (hs : env.stored db t = some task) : ∃ mt, task.mt = some mt ∧ env.loaded t task =
      some { mt with ringPrefix := (env.hash32 (taskKey t)).toNat } := by
  obtain ⟨hread, mt, hmt, hp⟩ := hw t task hs
  refine ⟨mt, hmt, ?_⟩
  rw [loaded, hmt]
  dsimp only
  rw [if_pos hread]
  split
  · rfl
  · next hne => rw [← hp.resolve_left hne]

theorem found_stored {db : Db} (hw : env.WellStored db) (t : UInt64) :
    ∃ r, env.found t (DataService.get db (taskRequest env.hash32 t)) = some r ∧
      (∀ mt ∈ r, mt.ringPrefix = (env.hash32 (taskKey t)).toNat) ∧
      ((∃ mt ∈ r, mt.state ≠ .finished) ↔ env.Unfinished db t) := by
  rw [found_get]
  cases hs : env.stored db t with
  | none => exact ⟨none, rfl, by simp, by simp [Unfinished, hs]⟩
  | some task =>
    obtain ⟨mt, hmt, hl⟩ := loaded_eq hw hs
    exact ⟨_, congrArg (Option.map some) hl, by simp, by simp [Unfinished, hs, hmt]⟩

theorem runGet_taskRequest (self : String) (i : Nat) (t : UInt64) :
    env.runGet self i (taskRequest env.hash32 t) =
      match env.loadRing self i (env.hash32 (taskKey t)) with
      | [] => none
      | node :: _ => if node.rpcEndpoint = self then
          some (DataService.get (env.store self i) (taskRequest env.hash32 t))
        else some (env.remote self i node (taskRequest env.hash32 t)) := by
  have hrt : (if 0 < (taskRequest env.hash32 t).ringPrefix then (taskRequest env.hash32 t).ringPrefix
      else env.hash32 (taskRequest env.hash32 t).data.key) = env.hash32 (taskKey t) := by
    split <;> rfl
  rw [runGet, hrt]

/-- In a quiet cluster a node hands over the unfinished tasks that it owns and has. -/
theorem recovers_quiet (hq : env.Quiet ring stores) (hring : ∀ token, ring token ≠ [])
    (hw : ∀ node, env.WellStored (stores node)) (self : String) (i : Nat) (t : UInt64) :
    ∃ b, env.recovers self i t = some b ∧
      (b = true ↔ Owns ring self (env.hash32 (taskKey t)) ∧ env.Unfinished (stores self) t) := by
  obtain ⟨node, nodes, hnodes⟩ := List.exists_cons_of_ne_nil (hring (env.hash32 (taskKey t)))
  have howns : Owns ring self (env.hash32 (taskKey t)) ↔ node.rpcEndpoint = self := by
    rw [Owns, hnodes, List.head?_cons, Option.map_some, Option.some.injEq]
  have howner : env.isLocalRingOwner self i (env.hash32 (taskKey t)) = decide (node.rpcEndpoint = self) := by
    rw [isLocalRingOwner, hq.ownerRing, hnodes]
  -- another node that owns the task may answer what it likes, as this one lets the task be
  obtain ⟨r, hload, htoken, hun⟩ : ∃ r, env.load self i t = some r ∧
      (∀ mt ∈ r, mt.ringPrefix = (env.hash32 (taskKey t)).toNat) ∧ (node.rpcEndpoint = self →
        ((∃ mt ∈ r, mt.state ≠ .finished) ↔ env.Unfinished (stores self) t)) := by
    rw [load, runGet_taskRequest, hq.loadRing, hnodes]
    by_cases hself : node.rpcEndpoint = self
    · obtain ⟨r, hr, htoken, hun⟩ := found_stored (hw self) t
      exact ⟨r, by simp only [if_pos hself, hq.store, Option.bind_some, hr], htoken, fun _ => hun⟩
    · simp only [if_neg hself, Option.bind_some]
      rcases hq.remote self i node (taskRequest env.hash32 t) with herr | hget
      · exact ⟨none, by rw [found, if_pos herr], by simp, fun h => absurd h hself⟩
      · obtain ⟨r, hr, htoken, -⟩ := found_stored (hw node.rpcEndpoint) t
        exact ⟨r, by rw [hget, hr], htoken, fun h => absurd h hself⟩
  rw [howns]
  refine ⟨_, by rw [recovers, hload]; rfl, ?_⟩
  rw [and_congr_right fun h => (hun h).symm]
  cases r with
  | none => simp
  | some mt => simp [htoken mt rfl, howner, and_comm]

theorem recoverLoop_eq {self : String} {Q : UInt64 → Prop} [DecidablePred Q]
    (h : ∀ i t, ∃ b, env.recovers self i t = some b ∧ (b = true ↔ Q t)) (i : Nat) (ids : List UInt64) :
    env.recoverLoop self i ids = some (ids.filter (Q ·)) := by
  induction ids generalizing i with
  | nil => rfl
  | cons t ids ih =>
    obtain ⟨b, hb, hQ⟩ := h i t
    rw [recoverLoop, hb, ih, List.filter_cons]
    by_cases hq : Q t
    · simp [hq, hQ.mpr hq]
    · simp [hq, mt hQ.mp hq]

/-- When all nodes recover in a quiet cluster, after any writes and handoffs, every unfinished task that
the owner of its token has in its store goes to the coordinator of that node and of no other, and once
where its rows have one prefix; nothing else goes to a coordinator. -/
theorem recovery_exact (hq : env.Quiet ring stores) (hring : ∀ token, ring token ≠ [])
    (hrun : ∀ node, Reaches StoreEvent.step (fun _ _ => True) ∅ (stores node))
    (hw : ∀ node, env.WellStored (stores node)) :
    ∃ recovered : String → List UInt64, (∀ self, env.recoverTasks self = some (recovered self)) ∧
      (∀ self t, t ∈ recovered self ↔
        Owns ring self (env.hash32 (taskKey t)) ∧ env.Unfinished (stores self) t) ∧
      (∀ self self' t, t ∈ recovered self → t ∈ recovered self' → self = self') ∧
      ∀ self, (∀ p t v, (stores self)[(taskAddress p t).index]? = some v → p = env.hash32 (taskKey t)) →
        (recovered self).Nodup := by
  classical
  have hrows := fun self => onlyRows_of_reaches (hrun self)
  refine ⟨fun self => ((LocalData.indexRows (stores self)).filterMap fun row =>
    (LocalData.scanRow row).join).filter
    fun t => Owns ring self (env.hash32 (taskKey t)) ∧ env.Unfinished (stores self) t, fun self => ?_, ?hmem,
    fun self self' t h h' => ?_, fun self hone => ?_⟩
  case hmem =>
    intro self t
    rw [List.mem_filter, decide_eq_true_iff]
    refine and_iff_right_of_imp fun h => ?_
    obtain ⟨task, -, hs, -⟩ := h.2
    obtain ⟨data, hget, -⟩ := get_of_stored hs
    obtain ⟨d, hrow, hst⟩ := LocalData.row_of_get (hrows self) hget
    exact (LocalData.mem_scan_iff (hrows self)).mpr ⟨_, d, hrow, hst⟩
  · rw [recoverTasks, hq.running, hq.scanned, LocalData.scanLocalTaskIds_eq (hrows self)]
    exact recoverLoop_eq (recovers_quiet hq hring hw self) 0 _
  · have howns := (of_decide_eq_true (List.mem_filter.mp h).2).1
    have howns' := (of_decide_eq_true (List.mem_filter.mp h').2).1
    exact Option.some.inj (howns.symm.trans howns')
  · exact (LocalData.nodup_scan (hrows self) hone).filter _

/-- A cluster whose ring has the node `a` only, and in whose stores every value is that of `smallTask`. -/
def sampleRecovery (db : Db) : RecoveryEnv Bytes :=
  let stores (node : String) : Db := if node = "a" then db else ∅
  { hash32 := fun _ => 9
    unmarshal := fun _ => some smallTask
    shutdown := fun _ => false
    scanned := stores
    loadRing := fun _ _ _ => [⟨"a", 9, "", "", "a", 0⟩]
    ownerRing := fun _ _ _ => [⟨"a", 9, "", "", "a", 0⟩]
    store := fun self _ => stores self
    remote := fun _ _ node req => DataService.get (stores node.rpcEndpoint) req }

theorem recovery_exact_sample : ∃ (env : RecoveryEnv Bytes) (recovered : String → List UInt64),
    (∀ self, env.recoverTasks self = some (recovered self)) ∧ 7 ∈ recovered "a" ∧ 7 ∉ recovered "b" := by
  obtain ⟨db, hdb, hget⟩ := exists_reaches_of_checkedRun StoreEvent.step (fun _ _ => True)
    (fun db => LocalData.get db (taskRequest (fun _ => 9) 7) = .ok ⟨[], [1], ⟨1, 0, 0, 1, 1, true, 0⟩⟩) ∅
    [.write ⟨.create, 1, ⟨9, taskKey 7, [1], ⟨0, taskFactoryId, taskClassId, 0, 0, true, 0⟩⟩⟩]
      (by decide +kernel)
  have hq : (sampleRecovery db).Quiet (fun _ => [⟨"a", 9, "", "", "a", 0⟩]) (sampleRecovery db).scanned :=
    ⟨fun _ => rfl, rfl, fun _ _ => rfl, fun _ _ => rfl, fun _ _ => rfl, fun _ _ _ _ => .inr rfl⟩
  have hrun : ∀ node, Reaches StoreEvent.step (fun _ _ => True) ∅ ((sampleRecovery db).scanned node) := by
    intro node
    show Reaches StoreEvent.step (fun _ _ => True) ∅ (if node = "a" then db else ∅)
    split
    · exact hdb
    · exact .refl
  have hw : ∀ node, (sampleRecovery db).WellStored ((sampleRecovery db).scanned node) := by
    intro node t task hs
    obtain ⟨data, -, hu⟩ := get_of_stored hs
    obtain rfl := Option.some.inj hu
    exact ⟨by decide, _, rfl, .inl rfl⟩
  obtain ⟨recovered, hrec, hmem, honly, -⟩ := recovery_exact hq (by simp) hrun hw
  have hstored : (sampleRecovery db).stored db 7 = some smallTask := by
    rw [stored]
    exact congrArg (fun r => match r with | .error _ => none | .ok _ => some smallTask) hget
  have ha : 7 ∈ recovered "a" := (hmem "a" 7).mpr ⟨rfl, smallTask, _, hstored, rfl, by decide⟩
  exact ⟨_, recovered, hrec, ha, fun hb => absurd (honly "a" "b" 7 ha hb) (by decide)⟩

end RecoveryEnv

end Tarantula
