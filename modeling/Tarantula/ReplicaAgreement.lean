import Tarantula.Replication

/-! Agreement of the replicas after an acknowledged write: when the nodes of a record,
which hold one version of it, hold one version again. -/

namespace Tarantula

namespace Write

def setData (hash32 : Bytes → UInt32) : Write → Request → SetData
  | create, req | reset, req => ⟨DataService.ringPrefixOf hash32 req, req.data⟩
  | update, req | delete, req => ⟨req.ringPrefix, req.data⟩

def handler (hash32 : Bytes → UInt32) : Write → Handler
  | create => DataService.create hash32
  | update => DataService.update
  | delete => DataService.delete
  | reset => DataService.reset hash32

/-- Also the node itself is called through its connection by `clientReset`. -/
def shared (self : String) : Write → Node → Bool
  | reset, _ => false
  | _, n => n.rpcEndpoint = self

end Write

namespace Env

def call (env : Env) (req : Request) : Write → Call
  | .create => env.clientCreate req
  | .update => env.clientUpdate req
  | .delete => env.clientDelete req
  | .reset => env.clientReset req

def run (env : Env) : Write → Request → (String → Db) → Option (World × Response)
  | .create => env.runCreate
  | .update => env.runUpdate
  | .delete => env.runDelete
  | .reset => env.runReset

def address (env : Env) (req : Request) : Write → Address
  | .create | .reset => env.recordAddress req
  | .update | .delete => req.address

def order (env : Env) (write : Write) (ring : List Node) : List Node :=
  match write with
  | .create => ring.take 1 ++ env.schedule (ring.drop 1)
  | _ => ring

/-- The ring is the one of the record in some hash ring and does not change, an endpoint
belongs to one address, and all nodes are reachable. -/
structure Replicated (env : Env) (req : Request) (ring : List Node) : Prop where
  keyRing : ∃ m : NodeRing, m.keyRing (DataService.ringPrefixOf env.hash32 req) replicaMax = some ring
  static : ∀ i, env.ring i = ring
  endpoint : ∀ n ∈ ring, ∀ n' ∈ ring, n.rpcEndpoint = n'.rpcEndpoint → n.ip = n'.ip
  up : ∀ i j, env.link i j = .up

/-- The condition under which the replicas, which all hold `v`, agree after the write. -/
def Keeps (env : Env) (req : Request) (ring : List Node) (v : Option Version) : Write → Prop
  | .create => ∀ u ∈ v, env.self ∉ (env.order .create ring).dropLast.map (·.rpcEndpoint) ∨
      req.data.header.state = dataStateDeleted ∧ req.data.header.updatable = u.updatable
  | .update => env.self ∉ (env.order .update ring).dropLast.map (·.rpcEndpoint)
  | .delete | .reset => True

variable {env : Env} {req : Request} {ring : List Node} {write : Write}

theorem handler_eq (env : Env) (write : Write) (db : Db) (now : UInt64) (req : Request) :
    let d := write.op db now (write.setData env.hash32 req)
    (write.handler env.hash32 db now req).db = d.db ∧
    (write.handler env.hash32 db now req).header = d.header ∧
    (write.handler env.hash32 db now req).reply.resp = some (DataService.respond d) := by
  cases write <;> exact ⟨rfl, rfl, rfl⟩

theorem call_serves (req : Request) (write : Write) (hup : ∀ i j, env.link i j = .up) :
    env.Serves (write.handler env.hash32) req (write.shared env.self) (env.call req write) := by
  cases write with
  | create => exact client_serves hup
  | update => exact client_serves hup
  | delete => exact client_serves hup
  | reset => exact remote_serves hup

theorem shared_one {n n' : Node} (h : write.shared env.self n = true)
    (h' : write.shared env.self n' = true) : n.rpcEndpoint = n'.rpcEndpoint := by
  cases write <;> simp_all [Write.shared]

section Ring

theorem mem_order {n : Node} : n ∈ env.order write ring ↔ n ∈ ring := by
  cases write with
  | create =>
    rw [order, List.mem_append, (env.schedule_perm _).mem_iff, ← List.mem_append,
      List.take_append_drop]
  | _ => rfl

theorem Replicated.nodup (hr : env.Replicated req ring) :
    ((env.order write ring).map (·.rpcEndpoint)).Nodup := by
  obtain ⟨m, hm⟩ := hr.keyRing
  have hring : (ring.map (·.rpcEndpoint)).Nodup := by
    have hip := (NodeRing.keyRing_ips hm).1
    rw [List.Nodup, List.pairwise_map] at hip ⊢
    exact hip.imp_of_mem fun ha hb hne he => hne (hr.endpoint _ ha _ hb he)
  cases write with
  | create =>
    have hp : (env.order .create ring).Perm ring := by
      have h := (env.schedule_perm (ring.drop 1)).append_left (ring.take 1)
      rwa [List.take_append_drop] at h
    exact (hp.map _).nodup_iff.mpr hring
  | _ => exact hring

theorem Replicated.primary (hr : env.Replicated req ring) : ∃ p slaves, ring = p :: slaves := by
  obtain ⟨m, hm⟩ := hr.keyRing
  exact List.exists_cons_of_ne_nil (NodeRing.keyRing_ips hm).2

end Ring

theorem setData_address {h : Header} (hi : h.SameIds req.data.header) :
    (write.setData env.hash32 (req.withHeader h)).address = env.address req write := by
  obtain ⟨h₁, h₂⟩ := hi
  cases write <;>
    simp only [Write.setData, SetData.address, Request.withHeader, address, recordAddress,
      Request.address, h₁, h₂] <;> rfl

theorem setData_data (h : Header) :
    (write.setData env.hash32 (req.withHeader h)).data = { req.data with header := h } := by
  cases write <;> rfl

theorem takes {h : Header} (hi : h.SameIds req.data.header) (hf : (env.address req write).Fits)
    (v : Option Version) :
    Takes (write.handler env.hash32) req (env.address req write) v (write.next req.data.value h v) h := by
  intro db now hv
  rw [← setData_address hi] at hf hv ⊢
  rw [(handler_eq env write db now _).1]
  have ho := write.op_holds now hf hv
  rwa [setData_data] at ho

section Attempts

variable {p : Node} {slaves : List Node}

def attempt (env : Env) (req : Request) (write : Write) (i : Nat) (n : Node) (w : World) : Done :=
  write.op (w.stores n.rpcEndpoint) (env.clock i 0) (write.setData env.hash32 (req.withHeader w.header))

theorem call_resp (hup : ∀ i j, env.link i j = .up) {i : Nat} {w : World} {r : Response}
    (h : (env.call req write i 0 p w).2.resp = some r) :
    r.successful = (env.attempt req write i p w).err.isNone := by
  have hr := (call_serves req write hup).reply i 0 p w r h
  rw [(handler_eq env write _ _ _).2.2] at hr
  rw [← Option.some.inj hr, respond_successful]
  rfl

/-- A successful loop has made all its calls from a world that the failed attempts before
it have kept `good`. -/
theorem runWrite_success (write : Write) (hup : ∀ i j, env.link i j = .up)
    (hring : ∀ i, env.ring i = p :: slaves)
    {answer : Response → Option Fail → Response} (good : World → Prop)
    (hbad : ∀ i w, good w → (env.attempt req write i p w).err ≠ none →
      good (env.call req write i 0 p w).1)
    {n i : Nat} {err : Option Fail} {w w' : World} {resp : Response} (hw : good w)
    (hrun : env.runWrite (env.call req write) answer n i err w = some (w', resp))
    (hok : resp.successful = true) :
    ∃ i w₀, good w₀ ∧ (env.attempt req write i p w₀).err = none ∧
      w' = callEach (env.call req write) i 0 (p :: slaves) w₀ := by
  have hp : ∀ i, (env.ring i).head? = some p := fun i => by rw [hring]; rfl
  induction n generalizing i err w with
  | zero =>
    simp only [runWrite, Option.some.injEq, Prod.mk.injEq] at hrun
    rw [← hrun.2] at hok
    cases hok
  | succ n ih =>
    cases hresp : (env.call req write i 0 p w).2.resp with
    | none =>
      rw [runWrite_nil (hp i) hresp] at hrun
      cases hrun
    | some r =>
      have hsuc := call_resp hup hresp
      generalize hc : env.call req write i 0 p w = c at hresp
      obtain ⟨w₁, ⟨_, e⟩⟩ := c
      cases hresp
      rw [runWrite_step (hp i) hc] at hrun
      cases herr : (env.attempt req write i p w).err with
      | none =>
        rw [if_pos (by rw [hsuc, herr]; rfl), hring, List.tail_cons] at hrun
        cases hrun
        exact ⟨i, w, hw, herr, by rw [callEach, hc]⟩
      | some f =>
        rw [if_neg (by rw [hsuc, herr]; simp)] at hrun
        have hgood := hbad i w hw (by simp [herr])
        rw [hc] at hgood
        exact ih hgood hrun

theorem createLoop_success (hup : ∀ i j, env.link i j = .up) (hring : ∀ i, env.ring i = p :: slaves)
    (good : World → Prop)
    (hbad : ∀ i w, good w → (env.attempt req .create i p w).err ≠ none →
      good (env.call req .create i 0 p w).1)
    {n i : Nat} {err : Option Fail} {w w' : World} {resp : Response} (hw : good w)
    (hrun : env.createLoop req n i err w = some (w', resp)) (hok : resp.successful = true) :
    ∃ i w₀, good w₀ ∧ (env.attempt req .create i p w₀).err = none ∧
      w' = callEach (env.call req .create) i 0 (p :: env.schedule slaves) w₀ := by
  induction n generalizing i err w with
  | zero =>
    simp only [createLoop, Option.some.injEq, Prod.mk.injEq] at hrun
    rw [← hrun.2] at hok
    cases hok
  | succ n ih =>
    have herr := (call_serves req .create hup).error i 0 p w
    have hsuc : ∀ r, (env.call req .create i 0 p w).2.resp = some r →
        r.successful = (env.attempt req .create i p w).err.isNone := fun r h => call_resp hup h
    have hgood := hbad i w hw
    simp only [createLoop, hring] at hrun
    rw [show env.clientCreate req i 0 p w = env.call req .create i 0 p w from rfl] at hrun
    generalize hc : env.call req .create i 0 p w = c at herr hsuc hgood hrun
    obtain ⟨w₁, ⟨r, e⟩⟩ := c
    have he : e = (env.attempt req .create i p w).err := herr
    cases e with
    | some f => exact ih (hgood (by simp [← he])) hrun
    | none =>
      cases r with
      | none => cases hrun
      | some r =>
        have hr : r.successful = true := by
          rw [hsuc r rfl, ← he]
          rfl
        simp only [hr, if_true, Option.some.injEq, Prod.mk.injEq] at hrun
        exact ⟨i, w, hw, he.symm, by rw [← hrun.1, callEach, hc]; rfl⟩

theorem run_success (hr : env.Replicated req ring) (hring : ring = p :: slaves)
    {stores : String → Db} (good : World → Prop)
    (hbad : ∀ i w, good w → (env.attempt req write i p w).err ≠ none →
      good (env.call req write i 0 p w).1)
    {w' : World} {resp : Response} (hw : good ⟨stores, req.data.header⟩)
    (hrun : env.run write req stores = some (w', resp)) (hok : resp.successful = true) :
    ∃ i w₀, good w₀ ∧ (env.attempt req write i p w₀).err = none ∧
      w' = callEach (env.call req write) i 0 (env.order write ring) w₀ := by
  subst hring
  cases write with
  | create => exact createLoop_success hr.up hr.static good hbad hw hrun hok
  | update => exact runWrite_success .update hr.up hr.static good hbad hw hrun hok
  | delete => exact runWrite_success .delete hr.up hr.static good hbad hw hrun hok
  | reset => exact runWrite_success .reset hr.up hr.static good hbad hw hrun hok

end Attempts

section Agreement

variable {p : Node} {slaves : List Node} {stores : String → Db} {v : Option Version}

/-- What failed attempts keep: the stores and the ids, and, where the create can succeed,
the state and the flag of the header. -/
structure Pending (env : Env) (req : Request) (stores : String → Db) (v : Option Version)
    (write : Write) (w : World) : Prop where
  stores : w.stores = stores
  ids : w.header.SameIds req.data.header
  header : write = .create → (env.address req .create).Fits → (∀ u ∈ v, u.state = dataStateDeleted) →
    w.header.state = req.data.header.state ∧ w.header.updatable = req.data.header.updatable

theorem Pending.failed (hr : env.Replicated req ring)
    (hv : Holds (env.address req write) (stores p.rpcEndpoint) v)
    {i : Nat} {w : World} (hw : env.Pending req stores v write w)
    (he : (env.attempt req write i p w).err ≠ none) :
    env.Pending req stores v write (env.call req write i 0 p w).1 := by
  have hworld := (call_serves req write hr.up).world i 0 p w
  have hdb : (env.attempt req write i p w).db = w.stores p.rpcEndpoint := write.op_failed _ he
  have hids : (env.attempt req write i p w).header.SameIds req.data.header := by
    have ho := write.op_ids (env.clock i 0) (w.stores p.rpcEndpoint)
      (write.setData env.hash32 (req.withHeader w.header))
    rw [setData_data] at ho
    exact ho.trans hw.ids
  obtain ⟨h₁, h₂, -⟩ := handler_eq env write (w.stores p.rpcEndpoint) (env.clock i 0)
    (req.withHeader w.header)
  rw [hworld]
  refine ⟨?_, ?_, fun hc hf hu => ?_⟩
  · dsimp only
    rw [h₁, show (write.op _ _ _).db = w.stores p.rpcEndpoint from hdb, Function.update_eq_self]
    exact hw.stores
  · dsimp only
    split
    · rw [h₂]
      exact hids
    · exact hw.ids
  · -- a create that can succeed does not fail
    subst hc
    rw [← hw.stores, ← setData_address hw.ids] at hv
    rw [← setData_address hw.ids] at hf
    exact absurd ((LocalData.create_ok_iff (env.clock i 0) hv).mpr ⟨hf, hu⟩) he

theorem mem_endpoints_dropLast (hn : write ≠ .reset) :
    (∀ n ∈ (env.order write ring).dropLast, write.shared env.self n = false) ↔
      env.self ∉ (env.order write ring).dropLast.map (·.rpcEndpoint) := by
  have hs : ∀ n, write.shared env.self n = decide (n.rpcEndpoint = env.self) := by
    intro n
    cases write <;> first | rfl | exact absurd rfl hn
  simp only [hs, decide_eq_false_iff_not, List.mem_map, not_exists, not_and]

/-- The calls of a successful attempt, where `v₂` is what a call makes of `v` with the
header that another one has left. -/
theorem calls_agree_iff (hr : env.Replicated req ring)
    (hv : ∀ n ∈ ring, Holds (env.address req write) (stores n.rpcEndpoint) v) {w : World}
    (hw : env.Pending req stores v write w) (hf : (env.address req write).Fits) (v₂ : Option Version)
    (h₂ : ∀ db now, Holds (env.address req write) db v →
      write.next req.data.value
        (write.op db now (write.setData env.hash32 (req.withHeader w.header))).header v = v₂) (i : Nat) :
    (∃ u, ∀ n ∈ ring, Holds (env.address req write)
        ((callEach (env.call req write) i 0 (env.order write ring) w).stores n.rpcEndpoint) u) ↔
      write.next req.data.value w.header v = v₂ ∨
        ∀ n ∈ (env.order write ring).dropLast, write.shared env.self n = false := by
  have hmem : ∀ n, n ∈ ring ↔ n ∈ env.order write ring := fun n => mem_order.symm
  simp only [hmem]
  refine callEach_agree_iff (call_serves req write hr.up) (fun _ _ => shared_one) hr.nodup
    (takes hw.ids hf v) (fun db now hdb => ?_) (fun n hn => ?_) 0
  rotate_left
  · rw [hw.stores]
    exact hv n ((hmem n).mpr hn)
  have hids := write.op_ids now db (write.setData env.hash32 (req.withHeader w.header))
  rw [setData_data] at hids
  rw [(handler_eq env write db now _).2.1, ← h₂ db now hdb]
  exact takes (hids.trans hw.ids) hf v

/-- Replicas that hold one version of the record hold one version again after a write that
is reported as successful, exactly if the write is a delete or a reset; or an update whose
calling node is not called before another replica; or a create over nothing, or with such a
calling node, or with a header that has the state and the flag of the tombstone. -/
theorem run_agrees_iff (hr : env.Replicated req ring)
    (hv : ∀ n ∈ ring, Holds (env.address req write) (stores n.rpcEndpoint) v)
    {w : World} {resp : Response} (hrun : env.run write req stores = some (w, resp))
    (hok : resp.successful = true) :
    (∃ u, ∀ n ∈ ring, Holds (env.address req write) (w.stores n.rpcEndpoint) u) ↔
      env.Keeps req ring v write := by
  obtain ⟨p, slaves, hring⟩ := hr.primary
  have hp : p ∈ ring := by simp [hring]
  obtain ⟨i, w₀, hw, herr, rfl⟩ := run_success hr hring (env.Pending req stores v write)
    (fun i w hw he => hw.failed hr (hv p hp) he) ⟨rfl, ⟨rfl, rfl⟩, fun _ _ _ => ⟨rfl, rfl⟩⟩ hrun hok
  have hpv := hv p hp
  rw [← hw.stores, ← setData_address hw.ids] at hpv
  have hf := write.op_fits _ hpv herr
  rw [setData_address hw.ids] at hf
  cases write with
  | delete =>
    rw [calls_agree_iff hr hv hw hf _ (fun _ _ _ => rfl)]
    exact ⟨fun _ => trivial, fun _ => .inl rfl⟩
  | reset =>
    rw [calls_agree_iff hr hv hw hf _ (fun _ _ _ => rfl)]
    exact ⟨fun _ => trivial, fun _ => .inl rfl⟩
  | update =>
    obtain ⟨u, rfl, hu, hrev⟩ := LocalData.update_ok _ herr hpv
    have hrev' : u.revision = w₀.header.revision := hrev
    have hne : u.revision + 1 ≠ u.revision := by simp
    -- the header left by a call has the next revision, which no other replica stores
    rw [calls_agree_iff hr hv hw hf (some u), mem_endpoints_dropLast (by simp)]
    · refine or_iff_right fun he => hne ?_
      simp only [Write.next, Option.map_some, Version.updated, hu, ← hrev', and_self, if_true,
        Option.some.injEq] at he
      exact congrArg Version.revision he
    · intro db now hdb
      rw [← setData_address hw.ids] at hdb hf
      have hh := LocalData.update_header now hf hdb hu hrev'
      simp [Write.next, Write.op, Version.updated, hh, hne.symm]
  | create =>
    obtain ⟨-, hdel⟩ := (LocalData.create_ok_iff _ hpv).mp herr
    obtain ⟨hst, hup⟩ := hw.header rfl hf hdel
    cases v with
    | none =>
      rw [calls_agree_iff hr hv hw hf (Write.next req.data.value w₀.header .create none)]
      · exact ⟨fun _ => by simp [Keeps], fun _ => .inl rfl⟩
      · intro db now hdb
        rw [← setData_address hw.ids] at hdb hf
        obtain ⟨h₁, h₂⟩ := LocalData.create_header_none now hf hdb
        simp only [Write.next, Write.op, h₁, h₂, setData_data]
    | some u =>
      have hu : u.state = dataStateDeleted := hdel u rfl
      rw [calls_agree_iff hr hv hw hf (some ⟨1, dataStateDeleted, u.updatable, none⟩),
        mem_endpoints_dropLast (by simp)]
      · simp only [Keeps, Write.next, Version.created, hu, hst, hup, if_true, Option.some.injEq,
          Version.mk.injEq, true_and, Option.mem_def, forall_eq']
        rw [or_comm]
        refine or_congr_right ⟨fun h => ⟨h.1, h.2.1⟩, fun h => ⟨h.1, h.2, ?_⟩⟩
        rw [shown, if_pos h.1]
      · intro db now hdb
        rw [← setData_address hw.ids] at hdb hf
        obtain ⟨h₁, h₂⟩ := LocalData.create_header_some now hf hdb
        simp only [Write.next, Write.op, h₁, h₂, Version.created, hu, if_true, shown]

end Agreement

section Samples

def sampleRing : List Node := [Node.ofEndpoint "a", Node.ofEndpoint "b"]

theorem sample_replicated (self : String) (rev : UInt64) :
    (sampleEnv self sampleRing).Replicated (sampleRequest rev) sampleRing := by
  have hkey : (⟨sampleRing, 2⟩ : NodeRing).keyRing 7 replicaMax = some sampleRing := by decide +kernel
  refine ⟨⟨⟨sampleRing, 2⟩, hkey⟩, fun _ => rfl, ?_, fun _ _ => rfl⟩
  intro n hn n' hn' he
  have hip : ∀ n ∈ sampleRing, n.ip = n.rpcEndpoint := by decide
  rw [hip n hn, hip n' hn', he]

theorem sampleStore_holds (updatable : Bool) (state : UInt32) :
    Holds sampleAddress (sampleStore updatable state)
      (some ⟨5, state, updatable, shown state [0]⟩) :=
  holds_insert ∅ ⟨5, 1, 1, 900, 1, updatable, state⟩ (by decide)  [0]

def sampleRows (r : Option (World × Response)) : Option (Bool × List (Option (UInt64 × UInt32 × Bool))) :=
  r.map fun x => (x.2.successful, sampleRing.map fun n =>
    (sampleAddress.row (x.1.stores n.rpcEndpoint)).map fun d => (d.revision, d.state, d.updatable))

/-- An update from a node that is no replica. -/
theorem run_agrees_iff_sample :
    ∃ w resp, (sampleEnv "c" sampleRing).run .update (sampleRequest 5) (fun _ => sampleStore true 0) =
        some (w, resp) ∧ resp.successful = true ∧
      ∃ u, ∀ n ∈ sampleRing, Holds sampleAddress (w.stores n.rpcEndpoint) u := by
  generalize hst : (fun _ : String => sampleStore true 0) = stores
  have hrows : sampleRows ((sampleEnv "c" sampleRing).run .update (sampleRequest 5) stores) =
      some (true, [some (6, 0, true), some (6, 0, true)]) := by
    rw [← hst]
    decide +kernel
  obtain ⟨⟨w, resp⟩, hrun, hx⟩ := Option.map_eq_some_iff.mp hrows
  have hok : resp.successful = true := congrArg Prod.fst hx
  have hv : ∀ n ∈ sampleRing, Holds ((sampleEnv "c" sampleRing).address (sampleRequest 5) .update)
      (stores n.rpcEndpoint) (some ⟨5, 0, true, some [0]⟩) := by
    rw [← hst]
    exact fun _ _ => sampleStore_holds true 0
  refine ⟨w, resp, hrun, hok, ?_⟩
  exact (run_agrees_iff (sample_replicated "c" 5) hv hrun hok).mpr
    (by simp [Keeps, sampleEnv, order, sampleRing, Node.ofEndpoint])

theorem sample_apart {r : Option (World × Response)} {d d' : Option (UInt64 × UInt32 × Bool)}
    (hr : sampleRows r = some (true, [d, d'])) (hne : d ≠ d') :
    ∃ w resp, r = some (w, resp) ∧ resp.successful = true ∧
      ¬ ∃ u, ∀ n ∈ sampleRing, Holds sampleAddress (w.stores n.rpcEndpoint) u := by
  obtain ⟨⟨w, resp⟩, rfl, hx⟩ := Option.map_eq_some_iff.mp hr
  simp only [sampleRing, List.map_cons, List.map_nil, Prod.mk.injEq, List.cons.injEq] at hx
  obtain ⟨hok, ha, hb, -⟩ := hx
  refine ⟨w, resp, rfl, hok, fun ⟨u, hu⟩ => hne ?_⟩
  have h₁ := (hu (Node.ofEndpoint "a") (by simp [sampleRing])).row_map (by decide)
  have h₂ := (hu (Node.ofEndpoint "b") (by simp [sampleRing])).row_map (by decide)
  exact (ha.symm.trans h₁).trans (h₂.symm.trans hb)

/-- The primary `a` updates the record: its own call leaves revision 6 in the header, which
the replica `b` refuses. It creates the record over a tombstone: the header is left with
the state of the tombstone, which `b` stores. -/
theorem run_leaves_replicas_apart :
    (sampleEnv "a" sampleRing).Replicated (sampleRequest 5) sampleRing ∧
    (∀ n ∈ sampleRing, Holds sampleAddress ((fun _ => sampleStore true 0) n.rpcEndpoint)
      (some ⟨5, 0, true, some [0]⟩)) ∧
    (∃ w resp, (sampleEnv "a" sampleRing).run .update (sampleRequest 5) (fun _ => sampleStore true 0) =
        some (w, resp) ∧ resp.successful = true ∧
      ¬ ∃ u, ∀ n ∈ sampleRing, Holds sampleAddress (w.stores n.rpcEndpoint) u) ∧
    (∀ n ∈ sampleRing, Holds sampleAddress ((fun _ => sampleStore true dataStateDeleted) n.rpcEndpoint)
      (some ⟨5, dataStateDeleted, true, none⟩)) ∧
    (∃ w resp, (sampleEnv "a" sampleRing).run .create (sampleRequest 5)
        (fun _ => sampleStore true dataStateDeleted) = some (w, resp) ∧ resp.successful = true ∧
      ¬ ∃ u, ∀ n ∈ sampleRing, Holds sampleAddress (w.stores n.rpcEndpoint) u) :=
  ⟨sample_replicated "a" 5, fun _ _ => sampleStore_holds true 0,
    sample_apart (show _ = some (true, [some (6, 0, true), some (5, 0, true)]) by decide +kernel)
      (by decide),
    fun _ _ => sampleStore_holds true dataStateDeleted,
    sample_apart (show _ = some (true, [some (1, 0, true), some (1, 2, true)]) by decide +kernel)
      (by decide)⟩

end Samples

end Env

end Tarantula
