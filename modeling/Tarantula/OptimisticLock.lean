import Tarantula.DataService

/-! Optimistic locking through the retry loop of `runUpdate`: when an update that carries
a stale revision is refused. -/

namespace Tarantula

namespace LocalData

variable {db : Db} {sd : SetData} (now : UInt64)

theorem update_of_match {d : Header} (hd : sd.address.row db = some d) (hu : d.updatable = true)
    (hr : d.revision = sd.data.header.revision) : (update db now sd).err = none := by
  have hrev : (sd.data.header.withRow d).revision = sd.data.header.revision := hr
  rw [update, edit_of_row hd updated_ids]
  simp [updated, hu, hrev]

theorem update_of_mismatch {d : Header} (hd : sd.address.row db = some d) (hu : d.updatable = true)
    (hr : d.revision ≠ sd.data.header.revision) :
    (update db now sd).err.isSome ∧ (update db now sd).db = db ∧
      (update db now sd).header = sd.data.header.withRow d := by
  have hrev : (sd.data.header.withRow d).revision ≠ sd.data.header.revision := hr
  rw [update, edit_of_row hd updated_ids]
  simp [updated, hu, hrev]

theorem update_refused (hd : ∀ d ∈ sd.address.row db, d.updatable = false) :
    (update db now sd).err.isSome ∧ (update db now sd).db = db ∧
      (update db now sd).header.SameIds sd.data.header := by
  cases hrow : sd.address.row db with
  | none => exact edit_of_no_row hrow
  | some d =>
    rw [update, edit_of_row hrow updated_ids, hd d hrow]
    exact ⟨rfl, rfl, rfl, rfl⟩

end LocalData

namespace Env

variable {env : Env} {req : Request} {stores : String → Db} {p : Node}

section Loop

variable {call : Call} {answer : Response → Option Fail → Response} {i : Nat} {w w₁ : World}
  {e err : Option Fail}

theorem runWrite_step (hp : (env.ring i).head? = some p) {resp : Response}
    (hc : call i 0 p w = (w₁, ⟨some resp, e⟩)) (n : Nat) :
    env.runWrite call answer (n + 1) i err w =
      if resp.successful then
        some (callEach call i 1 (env.ring i).tail w₁, answer resp err)
      else env.runWrite call answer n (i + 1) resp.message w₁ := by
  obtain ⟨slaves, hring⟩ := List.head?_eq_some_iff.mp hp
  simp only [runWrite, hring, hc, List.tail_cons]

theorem runWrite_nil (hp : (env.ring i).head? = some p) (hc : (call i 0 p w).2.resp = none)
    (n : Nat) : env.runWrite call answer (n + 1) i err w = none := by
  obtain ⟨slaves, hring⟩ := List.head?_eq_some_iff.mp hp
  generalize hr : call i 0 p w = r at hc
  obtain ⟨w₁, ⟨_, e⟩⟩ := r
  cases hc
  simp only [runWrite, hring, hr]

theorem runWrite_refused (good : World → Prop) {N : Nat} (hp : ∀ i, (env.ring i).head? = some p)
    (hcall : ∀ i < N, ∀ w, good w → good (call i 0 p w).1 ∧
      ∃ resp, (call i 0 p w).2.resp = some resp ∧ resp.successful = false)
    {n i : Nat} (hn : i + n ≤ N) (err : Option Fail) {w : World} (hw : good w) :
    ∃ w' err', env.runWrite call answer n i err w = some (w', ⟨false, err', []⟩) ∧ good w' := by
  induction n generalizing i err w with
  | zero => exact ⟨w, err, rfl, hw⟩
  | succ n ih =>
    obtain ⟨hgood, resp, hresp, hf⟩ := hcall i (by omega) w hw
    generalize hc : call i 0 p w = r at hgood hresp
    obtain ⟨w₁, ⟨_, e⟩⟩ := r
    cases hresp
    rw [runWrite_step (hp i) hc, if_neg (by simp [hf])]
    exact ih (by omega) resp.message hgood

end Loop

/-- The address under which `Create` stores the record of the request; `Update` looks for
it under the address of the request itself. -/
def recordAddress (env : Env) (req : Request) : Address :=
  { req.address with ringPrefix := DataService.ringPrefixOf env.hash32 req }

/-- The update is reported as failed, and the rows of the record on the node `p` are as
they were. -/
def Refuses (env : Env) (req : Request) (stores : String → Db) (p : Node) : Prop :=
  ∃ w resp, env.runUpdate req stores = some (w, resp) ∧ resp.successful = false ∧
    (w.stores p.rpcEndpoint)[(env.recordAddress req).index]? =
      (stores p.rpcEndpoint)[(env.recordAddress req).index]? ∧
    ∀ rev, (w.stores p.rpcEndpoint)[(env.recordAddress req).data rev]? =
      (stores p.rpcEndpoint)[(env.recordAddress req).data rev]?

theorem clientUpdate_self (hs : p.rpcEndpoint = env.self) (i j : Nat) (w : World) :
    env.clientUpdate req i j p w =
      let d := LocalData.update (w.stores env.self) (env.clock i j)
        ⟨req.ringPrefix, (req.withHeader w.header).data⟩
      (⟨Function.update w.stores env.self d.db, d.header⟩, ⟨some (DataService.respond d), d.err⟩) := by
  simp only [clientUpdate, client, if_pos hs, DataService.update, DataService.serve]
  rfl

theorem respond_successful (d : Done) : (DataService.respond d).successful = d.err.isNone := by
  unfold DataService.respond
  split <;> simp [*]

theorem address_withHeader {h : Header} (hi : h.SameIds req.data.header) :
    SetData.address ⟨req.ringPrefix, (req.withHeader h).data⟩ = req.address := by
  simp only [SetData.address, Request.withHeader, Request.address, hi.1, hi.2]

theorem refuses_of_immutable (hp : ∀ i, (env.ring i).head? = some p)
    (hs : p.rpcEndpoint = env.self)
    (hd : ∀ d ∈ req.address.row (stores p.rpcEndpoint), d.updatable = false) :
    env.Refuses req stores p := by
  have hcall : ∀ i < retryMax, ∀ w : World, w.stores = stores ∧ w.header.SameIds req.data.header →
      ((env.clientUpdate req i 0 p w).1.stores = stores ∧
        (env.clientUpdate req i 0 p w).1.header.SameIds req.data.header) ∧
      ∃ resp, (env.clientUpdate req i 0 p w).2.resp = some resp ∧ resp.successful = false := by
    rintro i - w ⟨rfl, hids⟩
    rw [← address_withHeader hids, hs] at hd
    obtain ⟨herr, hdb, hheader⟩ := LocalData.update_refused (env.clock i 0) hd
    rw [clientUpdate_self hs]
    refine ⟨⟨?_, ?_⟩, _, rfl, ?_⟩
    · simp only [hdb, Function.update_eq_self]
    · exact hheader.trans hids
    · rw [respond_successful, Option.isNone_eq_false_iff]
      exact herr
  obtain ⟨w, err, hrun, hw, -⟩ := runWrite_refused _ hp hcall (Nat.zero_add _).le none
    (w := ⟨stores, req.data.header⟩) ⟨rfl, rfl, rfl⟩
  exact ⟨w, _, hrun, rfl, by rw [hw], fun rev => by rw [hw]⟩

/-- With an updatable row the second attempt succeeds at the latest: the first one has
left the stored revision in the header. -/
theorem succeeds_of_updatable (hp : ∀ i, (env.ring i).head? = some p)
    (hs : p.rpcEndpoint = env.self) {d : Header}
    (hd : req.address.row (stores p.rpcEndpoint) = some d) (hu : d.updatable = true) :
    ∃ w resp, env.runUpdate req stores = some (w, resp) ∧ resp.successful = true := by
  have hattempt : ∀ i (w : World), w.stores = stores → w.header.SameIds req.data.header →
      if d.revision = w.header.revision then
        ∃ resp, (env.clientUpdate req i 0 p w).2.resp = some resp ∧ resp.successful = true
      else (env.clientUpdate req i 0 p w).1 = ⟨stores, w.header.withRow d⟩ ∧
        ∃ resp, (env.clientUpdate req i 0 p w).2.resp = some resp ∧ resp.successful = false := by
    rintro i w rfl hids
    rw [← address_withHeader hids, hs] at hd
    rw [clientUpdate_self hs]
    by_cases hr : d.revision = w.header.revision
    · rw [if_pos hr]
      have herr := LocalData.update_of_match (env.clock i 0) hd hu hr
      exact ⟨_, rfl, by simp [respond_successful, herr]⟩
    · rw [if_neg hr]
      obtain ⟨herr, hdb, hheader⟩ := LocalData.update_of_mismatch (env.clock i 0) hd hu hr
      refine ⟨?_, _, rfl, ?_⟩
      · simp only [hdb, hheader, Function.update_eq_self]
        rfl
      · rw [respond_successful, Option.isNone_eq_false_iff]
        exact herr
  have hsuccess : ∀ i err (w : World) n, w.stores = stores → w.header.SameIds req.data.header →
      d.revision = w.header.revision → ∃ w' resp,
        env.runWrite (env.clientUpdate req) (fun resp _ => resp) (n + 1) i err w = some (w', resp) ∧
          resp.successful = true := by
    intro i err w n hstores hids hr
    have ha := hattempt i w hstores hids
    rw [if_pos hr] at ha
    obtain ⟨resp, hresp, hok⟩ := ha
    generalize hc : env.clientUpdate req i 0 p w = r at hresp
    obtain ⟨w₁, ⟨_, e⟩⟩ := r
    cases hresp
    exact ⟨_, resp, by rw [runWrite_step (hp i) hc, if_pos hok], hok⟩
  by_cases hr : d.revision = req.data.header.revision
  · exact hsuccess 0 none ⟨stores, req.data.header⟩ 2 rfl ⟨rfl, rfl⟩ hr
  · have ha := hattempt 0 ⟨stores, req.data.header⟩ rfl ⟨rfl, rfl⟩
    rw [if_neg hr] at ha
    obtain ⟨hw, resp, hresp, hf⟩ := ha
    generalize hc : env.clientUpdate req 0 0 p ⟨stores, req.data.header⟩ = r at hw hresp
    obtain ⟨w₁, ⟨_, e⟩⟩ := r
    cases hresp
    obtain rfl : w₁ = _ := hw
    obtain ⟨w, resp', hrun, hok⟩ :=
      hsuccess 1 resp.message ⟨stores, req.data.header.withRow d⟩ 1 rfl ⟨rfl, rfl⟩ rfl
    refine ⟨w, resp', ?_, hok⟩
    rw [runUpdate, retryMax, runWrite_step (hp 0) hc, if_neg (by simp [hf]), hrun]

theorem remote_not_refused (hp : ∀ i, (env.ring i).head? = some p)
    (hs : p.rpcEndpoint ≠ env.self) {n i : Nat} {err : Option Fail} {w w' : World} {resp : Response}
    (hlink : ∃ k, i ≤ k ∧ k < i + n ∧ env.link k 0 ≠ .noConn)
    (hrun : env.runWrite (env.clientUpdate req) (fun resp _ => resp) n i err w = some (w', resp)) :
    resp.successful = true := by
  induction n generalizing i err w with
  | zero =>
    obtain ⟨k, hle, hlt, -⟩ := hlink
    omega
  | succ n ih =>
    have hcall : env.clientUpdate req i 0 p w =
        env.remote DataService.update .connection req i 0 p w := if_neg hs
    cases hl : env.link i 0 with
    | noConn =>
      have hc : env.clientUpdate req i 0 p w =
          (w, ⟨some ⟨false, some .connection, []⟩, some .connection⟩) := by
        simp only [hcall, remote, hl]
      rw [runWrite_step (hp i) hc, if_neg (by simp)] at hrun
      obtain ⟨k, hle, hlt, hk⟩ := hlink
      have hne : i ≠ k := fun he => hk (he ▸ hl)
      exact ih ⟨k, by omega, by omega, hk⟩ hrun
    | requestLost =>
      rw [runWrite_nil (hp i) (by simp only [hcall, remote, hl])] at hrun
      cases hrun
    | replyLost =>
      rw [runWrite_nil (hp i) (by simp only [hcall, remote, hl])] at hrun
      cases hrun
    | up =>
      generalize hd : LocalData.update (w.stores p.rpcEndpoint) (env.clock i 0)
        ⟨req.ringPrefix, (req.withHeader w.header).data⟩ = d
      have hserve : DataService.update (w.stores p.rpcEndpoint) (env.clock i 0)
          (req.withHeader w.header) = DataService.serve d := by rw [← hd]; rfl
      cases herr : d.err with
      | some f =>
        rw [runWrite_nil (hp i) (by simp [hcall, remote, hl, hserve, DataService.serve, herr])] at hrun
        cases hrun
      | none =>
        have hc : env.clientUpdate req i 0 p w =
            (⟨Function.update w.stores p.rpcEndpoint d.db, w.header⟩,
              ⟨some (DataService.respond d), none⟩) := by
          simp [hcall, remote, hl, hserve, DataService.serve, herr]
        have hok : (DataService.respond d).successful = true := by
          rw [respond_successful, herr]
          rfl
        rw [runWrite_step (hp i) hc, if_pos hok] at hrun
        cases hrun
        exact hok

/-- An update is refused, with the rows of the record as they were, exactly if the primary
is the calling node and the index row that `Update` finds is missing, not readable or not
updatable, or if it is another node and no attempt gets a connection. The revision that
the request carries plays no role. -/
theorem runUpdate_refuses_iff (hp : ∀ i, (env.ring i).head? = some p) :
    env.Refuses req stores p ↔
      if p.rpcEndpoint = env.self then
        ∀ d ∈ req.address.row (stores p.rpcEndpoint), d.updatable = false
      else ∀ i < retryMax, env.link i 0 = .noConn := by
  split
  · next hs =>
    refine ⟨fun href d hd => ?_, refuses_of_immutable hp hs⟩
    rw [Bool.eq_false_iff]
    intro hu
    obtain ⟨w, resp, hrun, hok⟩ := succeeds_of_updatable hp hs hd hu
    obtain ⟨w', resp', hrun', hf, -⟩ := href
    rw [hrun] at hrun'
    cases hrun'
    simp [hok] at hf
  · next hs =>
    constructor
    · rintro ⟨w, resp, hrun, hf, -⟩ i hi
      by_contra hl
      have hok := remote_not_refused hp hs ⟨i, by omega, by omega, hl⟩ hrun
      simp [hok] at hf
    · intro hl
      have hcall : ∀ i < retryMax, ∀ w : World, w.stores = stores →
          (env.clientUpdate req i 0 p w).1.stores = stores ∧
          ∃ resp, (env.clientUpdate req i 0 p w).2.resp = some resp ∧ resp.successful = false := by
        rintro i hi w rfl
        have hc : env.clientUpdate req i 0 p w =
            (w, ⟨some ⟨false, some .connection, []⟩, some .connection⟩) := by
          simp only [clientUpdate, client, if_neg hs, remote, hl i hi]
        rw [hc]
        exact ⟨rfl, _, rfl, rfl⟩
      obtain ⟨w, err, hrun, hw⟩ := runWrite_refused _ hp hcall (Nat.zero_add _).le none
        (w := ⟨stores, req.data.header⟩) rfl
      exact ⟨w, _, hrun, rfl, by rw [hw], fun rev => by rw [hw]⟩

end Env

/-- The node `self` in a cluster whose ring always answers `ring` and whose calls arrive. -/
def sampleEnv (self : String) (ring : List Node) : Env :=
  { self := self
    hash32 := Murmur3.sum32
    ring := fun _ => ring
    link := fun _ _ => .up
    clock := fun i j => 1000 + 10 * UInt64.ofNat i + UInt64.ofNat j
    schedule := id
    schedule_perm := fun _ => .refl _ }

/-- A write of the value `1` to the record 7/1/1/`k`, with a header of the given revision. -/
def sampleRequest (revision : UInt64) : Request :=
  ⟨7, ⟨[107], [1], ⟨revision, 1, 1, 0, 0, true, 0⟩⟩⟩

def sampleAddress : Address := ⟨7, 1, 1, [107]⟩

/-- A store in which the record has the value `0` at revision 5. -/
def sampleStore (updatable : Bool) (state : UInt32) : Db :=
  ((∅ : Db).insert sampleAddress.index (rowBytes ⟨5, 1, 1, 900, 1, updatable, state⟩)).insert
    (sampleAddress.data 5) [0]

namespace Env

/-- The record of the calling node is not updatable. -/
theorem runUpdate_refuses_iff_sample :
    (sampleEnv "a" [Node.ofEndpoint "a", Node.ofEndpoint "b"]).Refuses (sampleRequest 3)
      (fun _ => sampleStore false 0) (Node.ofEndpoint "a") :=
  (runUpdate_refuses_iff fun _ => rfl).mpr (by decide +kernel)

/-- A record at revision 5 and an update that carries revision 3. On the calling node itself
the second attempt stores it as revision 6; from another node the loop uses a nil response. -/
theorem runUpdate_accepts_stale_revision :
    (sampleAddress.row (sampleStore true 0)).map (·.revision) = some 5 ∧
    ¬ (sampleEnv "a" [Node.ofEndpoint "a"]).Refuses (sampleRequest 3)
      (fun _ => sampleStore true 0) (Node.ofEndpoint "a") ∧
    (((sampleEnv "a" [Node.ofEndpoint "a"]).runUpdate (sampleRequest 3) fun _ => sampleStore true 0).bind
      fun r => sampleAddress.row (r.1.stores "a")).map (·.revision) = some 6 ∧
    ((sampleEnv "b" [Node.ofEndpoint "a"]).runUpdate (sampleRequest 3) fun _ =>
      sampleStore true 0).isNone := by
  refine ⟨by decide +kernel, ?_, by decide +kernel, by decide +kernel⟩
  rintro ⟨w, resp, hrun, hf, -⟩
  have hok : ((sampleEnv "a" [Node.ofEndpoint "a"]).runUpdate (sampleRequest 3)
      fun _ => sampleStore true 0).map (·.2.successful) = some true := by decide +kernel
  simp [hrun, hf] at hok

end Env

end Tarantula
