import Tarantula.OptimisticLock
import Tarantula.Runs
import Tarantula.Versions

/-! The calls of `updateTask` for one task, which run concurrently: each serializes the task,
reads the revision, tries `runUpdate`, and then increments the revision and runs its
callback. -/

namespace Tarantula

def taskFactoryId : UInt32 := 3
def taskClassId : UInt32 := 1

/-- The task, the node that runs its calls, and the nodes of its record. -/
structure TaskSetting where
  self : String
  hash32 : Bytes → UInt32
  taskId : UInt64
  primary : Node
  slaves : List Node
  apart : ∀ n ∈ slaves, n.rpcEndpoint ≠ primary.rpcEndpoint

/-- Where a call stands in `runUpdate`: attempts are left, or the primary has answered with
success and slaves are left. -/
inductive CallPhase
  | trying (reties : Nat)
  | replicating (slaves : List Node)
  deriving DecidableEq

structure UpdateCall where
  req : Request
  header : Header
  phase : CallPhase

/-- A call that has run its callback: the revision of the task after it, the bytes it
serialized, and what the primary holds at this moment. -/
structure Completed where
  revision : UInt64
  bytes : Bytes
  held : Option Version
  deriving DecidableEq

structure TaskCalls where
  stores : String → Db
  revision : UInt64
  calls : IdMap UpdateCall
  completed : List Completed

inductive CallEvent
  | begin (c : Nat) (bytes : Bytes)
  | attempt (c : Nat) (link : Link) (now : UInt64)
  | replicate (c : Nat) (link : Link) (now : UInt64)
  | complete (c : Nat)
  deriving DecidableEq

def UpdateCall.isStored (call : UpdateCall) : Bool :=
  match call.phase with
  | .trying _ => false
  | .replicating _ => true

namespace TaskSetting

variable (t : TaskSetting)

def key : Bytes := beBytes 8 t.taskId.toNat

def address : Address := ⟨t.hash32 t.key, taskFactoryId, taskClassId, t.key⟩

/-- The request of the builder with the revision and the prefix that `updateTask` sets. -/
def request (bytes : Bytes) (revision : UInt64) : Request :=
  ⟨t.hash32 t.key, ⟨t.key, bytes, ⟨revision, taskFactoryId, taskClassId, 0, 0, true, 0⟩⟩⟩

def client (link : Link) (now : UInt64) (call : UpdateCall) (n : Node) (stores : String → Db) :
    World × Reply :=
  let env : Env :=
    { self := t.self
      hash32 := t.hash32
      ring := fun _ => t.primary :: t.slaves
      link := fun _ _ => link
      clock := fun _ _ => now
      schedule := id
      schedule_perm := List.Perm.refl }
  env.clientUpdate call.req 0 0 n ⟨stores, call.header⟩

def step (s : TaskCalls) : CallEvent → Option TaskCalls
  | .begin c bytes =>
    match s.calls[c]? with
    | some _ => none
    | none =>
      -- the builder refuses the id 0, and then the call returns
      if t.taskId = 0 then some s
      else
        let req := t.request bytes s.revision
        some { s with calls := s.calls.insert c ⟨req, req.data.header, .trying retryMax⟩ }
  | .attempt c link now =>
    match s.calls[c]? with
    | some ⟨req, header, .trying (n + 1)⟩ =>
      match t.client link now ⟨req, header, .trying (n + 1)⟩ t.primary s.stores with
      | (_, ⟨none, _⟩) => none
      | (w, ⟨some resp, _⟩) =>
        let phase := if resp.successful then .replicating t.slaves else .trying n
        some { s with stores := w.stores, calls := s.calls.insert c ⟨req, w.header, phase⟩ }
    | _ => none
  | .replicate c link now =>
    match s.calls[c]? with
    | some ⟨req, header, .replicating (n :: slaves)⟩ =>
      let w := (t.client link now ⟨req, header, .replicating (n :: slaves)⟩ n s.stores).1
      some { s with
        stores := w.stores, calls := s.calls.insert c ⟨req, w.header, .replicating slaves⟩ }
    | _ => none
  | .complete c =>
    match s.calls[c]? with
    | some call =>
      -- `runUpdate` has returned: its error is nil also where no attempt was successful
      if call.phase = .trying 0 ∨ call.phase = .replicating [] then
        let held := t.address.held (s.stores t.primary.rpcEndpoint)
        some { s with
          revision := s.revision + 1
          calls := s.calls.erase c
          completed := ⟨s.revision + 1, call.req.data.value, held⟩ :: s.completed }
      else none
    | none => none

/-- The call gets to the primary and its answer back. -/
def Reached (link : Link) : Prop := t.primary.rpcEndpoint = t.self ∨ link = .up

instance (link : Link) : Decidable (t.Reached link) := inferInstanceAs (Decidable (_ ∨ _))

theorem address_fits : t.address.Fits := by
  simp [Address.Fits, address, key, compositKeyMax]

section Client

variable {t} {link : Link} {now : UInt64} {call : UpdateCall} {stores : String → Db}

theorem client_header (hi : call.header.SameIds call.req.data.header) (n : Node) :
    (t.client link now call n stores).1.header.SameIds call.req.data.header := by
  simp only [client, Env.clientUpdate, Env.client]
  split
  · exact (LocalData.edit_ids LocalData.updated_ids).trans hi
  · unfold Env.remote
    split <;> exact hi

theorem client_stores {n : Node} {ep : String} (hn : n.rpcEndpoint ≠ ep) :
    (t.client link now call n stores).1.stores ep = stores ep := by
  simp only [client, Env.clientUpdate, Env.client]
  split
  · next hs => exact Function.update_of_ne (hs ▸ hn).symm _ _
  · unfold Env.remote
    split
    · rfl
    · rfl
    · exact Function.update_of_ne hn.symm _ _
    · exact Function.update_of_ne hn.symm _ _

theorem update_primary (hi : call.header.SameIds call.req.data.header)
    (ha : call.req.address = t.address) {db : Db} {v : Version}
    (hv : Holds t.address db (some v)) (hu : v.updatable = true) (now : UInt64) :
    let d := LocalData.update db now ⟨call.req.ringPrefix, (call.req.withHeader call.header).data⟩
    if call.header.revision = v.revision then
      d.err = none ∧ Holds t.address d.db (some (v.updated call.req.data.value v.revision))
    else d.err.isSome ∧ d.db = db := by
  have haddr := Env.address_withHeader hi
  rw [ha] at haddr
  have hf := t.address_fits
  rw [← haddr] at hv hf ⊢
  obtain ⟨d, hd, hrev, -, hup⟩ := hv.row hf
  split
  · next h =>
    have hh := LocalData.update_holds now hf hv
    refine ⟨LocalData.update_of_match now hd (hup.trans hu) (hrev.trans h.symm), ?_⟩
    rw [← h]
    exact hh
  · next h =>
    have hm := LocalData.update_of_mismatch now hd (hup.trans hu) fun he => h (he.symm.trans hrev)
    exact ⟨hm.1, hm.2.1⟩

theorem client_cases {w : World} {resp : Response} {e : Option Fail}
    (hc : t.client link now call t.primary stores = (w, ⟨some resp, e⟩)) :
    let d := LocalData.update (stores t.primary.rpcEndpoint) now
      ⟨call.req.ringPrefix, (call.req.withHeader call.header).data⟩
    (t.Reached link ∧ w.stores = Function.update stores t.primary.rpcEndpoint d.db ∧
      resp = DataService.respond d) ∨
    (¬ t.Reached link ∧ w.stores = stores ∧ resp.successful = false) := by
  by_cases hs : t.primary.rpcEndpoint = t.self
  · rw [client, Env.clientUpdate_self hs] at hc
    cases hc
    rw [hs]
    exact .inl ⟨.inl hs, rfl, rfl⟩
  · simp only [client, Env.clientUpdate, Env.client, if_neg hs, Env.remote] at hc
    cases link with
    | noConn =>
      cases hc
      exact .inr ⟨by simp [Reached, hs], rfl, rfl⟩
    | requestLost => cases hc
    | replyLost => cases hc
    | up =>
      simp only [Prod.mk.injEq] at hc
      obtain ⟨rfl, hr⟩ := hc
      refine .inl ⟨.inr rfl, rfl, ?_⟩
      split at hr
      · cases hr
      · exact (Option.some.inj (congrArg Reply.resp hr)).symm

/-- An attempt whose answer comes back is a success exactly if it got to the primary with the
revision stored there; otherwise no store has changed. -/
theorem client_primary (hi : call.header.SameIds call.req.data.header)
    (ha : call.req.address = t.address) {v : Version}
    (hv : Holds t.address (stores t.primary.rpcEndpoint) (some v)) (hu : v.updatable = true)
    {w : World} {resp : Response} {e : Option Fail}
    (hc : t.client link now call t.primary stores = (w, ⟨some resp, e⟩)) :
    if t.Reached link ∧ call.header.revision = v.revision then
      resp.successful = true ∧ Holds t.address (w.stores t.primary.rpcEndpoint)
        (some (v.updated call.req.data.value v.revision))
    else resp.successful = false ∧ w.stores = stores := by
  have hd := update_primary hi ha hv hu now
  rcases client_cases hc with ⟨hr, hw, rfl⟩ | ⟨hr, hw, hf⟩
  · rw [Env.respond_successful, hw]
    by_cases h : call.header.revision = v.revision
    · rw [if_pos h] at hd
      rw [if_pos ⟨hr, h⟩, Function.update_self, hd.1]
      exact ⟨rfl, hd.2⟩
    · rw [if_neg h] at hd
      rw [if_neg fun hx => h hx.2, hd.2, Function.update_eq_self]
      exact ⟨by simpa using hd.1, rfl⟩
  · rw [if_neg fun hx => hr hx.1]
    exact ⟨hf, hw⟩

end Client

section Alone

variable {t} {env : Env} {req : Request} {c : Nat}

/-- The steps of call `c` alone take `s` to a state with these stores and this call. -/
def Runs (t : TaskSetting) (c : Nat) (s : TaskCalls) (stores : String → Db) (call : UpdateCall) : Prop :=
  ∃ s', Reaches t.step (fun _ _ => True) s s' ∧ s'.stores = stores ∧ s'.calls[c]? = some call ∧
    s'.revision = s.revision ∧ s'.completed = s.completed

theorem Runs.head {s s₁ : TaskCalls} {e : CallEvent} {stores : String → Db} {call : UpdateCall}
    (hstep : t.step s e = some s₁) (hr : s₁.revision = s.revision) (hl : s₁.completed = s.completed)
    (h : t.Runs c s₁ stores call) : t.Runs c s stores call := by
  obtain ⟨s', hs', h₁, h₂, h₃, h₄⟩ := h
  exact ⟨s', .head ⟨e, trivial, hstep⟩ hs', h₁, h₂, h₃.trans hr, h₄.trans hl⟩

theorem client_env (req : Request) (hself : env.self = t.self) (i j : Nat) (n : Node) (w : World)
    (phase : CallPhase) :
    t.client (env.link i j) (env.clock i j) ⟨req, w.header, phase⟩ n w.stores =
      env.clientUpdate req i j n w := by
  simp only [client, Env.clientUpdate, Env.client, hself]
  rfl

theorem runs_callEach (hself : env.self = t.self) {i j : Nat} {slaves : List Node} {w : World}
    {s : TaskCalls} (hs : s.stores = w.stores)
    (hc : s.calls[c]? = some ⟨req, w.header, .replicating slaves⟩) :
    t.Runs c s (Env.callEach (env.clientUpdate req) i j slaves w).stores
      ⟨req, (Env.callEach (env.clientUpdate req) i j slaves w).header, .replicating []⟩ := by
  induction slaves generalizing j w s with
  | nil => exact ⟨s, .refl, hs, hc, rfl, rfl⟩
  | cons n slaves ih =>
    have hw := client_env req hself i j n w (.replicating (n :: slaves))
    have hstep : t.step s (.replicate c (env.link i j) (env.clock i j)) = some { s with
        stores := (env.clientUpdate req i j n w).1.stores
        calls := s.calls.insert c
          ⟨req, (env.clientUpdate req i j n w).1.header, .replicating slaves⟩ } := by
      simp only [step, hc, hs, hw]
    refine .head hstep rfl rfl (ih rfl ?_)
    rw [ExtMap.getElem?_insert, if_pos rfl]

/-- A call that runs alone does what `runUpdate` does. -/
theorem runs_runWrite (hself : env.self = t.self) (hring : ∀ i, env.ring i = t.primary :: t.slaves)
    {n i : Nat} {err : Option Fail} {w w' : World} {resp : Response}
    (hrun : env.runWrite (env.clientUpdate req) (fun resp _ => resp) n i err w = some (w', resp))
    {s : TaskCalls} (hs : s.stores = w.stores)
    (hc : s.calls[c]? = some ⟨req, w.header, .trying n⟩) :
    t.Runs c s w'.stores
      ⟨req, w'.header, if resp.successful then .replicating [] else .trying 0⟩ := by
  induction n generalizing i err w s with
  | zero =>
    simp only [Env.runWrite, Option.some.injEq, Prod.mk.injEq] at hrun
    obtain ⟨rfl, rfl⟩ := hrun
    exact ⟨s, .refl, hs, hc, rfl, rfl⟩
  | succ n ih =>
    have hw := client_env req hself i 0 t.primary w (.trying (n + 1))
    have hp : (env.ring i).head? = some t.primary := by rw [hring]; rfl
    generalize hcall : env.clientUpdate req i 0 t.primary w = r at hw
    obtain ⟨w₁, ⟨_ | r, e⟩⟩ := r
    · rw [Env.runWrite_nil hp (by rw [hcall])] at hrun
      cases hrun
    · have hstep : t.step s (.attempt c (env.link i 0) (env.clock i 0)) = some { s with
          stores := w₁.stores
          calls := s.calls.insert c
            ⟨req, w₁.header, if r.successful then .replicating t.slaves else .trying n⟩ } := by
        simp only [step, hc, hs, hw]
      rw [Env.runWrite_step hp hcall] at hrun
      split at hrun
      · next hok =>
        rw [hring, List.tail_cons] at hrun
        cases hrun
        rw [if_pos hok] at hstep ⊢
        refine .head hstep rfl rfl (runs_callEach hself rfl ?_)
        rw [ExtMap.getElem?_insert, if_pos rfl]
      · next hok =>
        rw [if_neg hok] at hstep
        refine .head hstep rfl rfl (ih hrun rfl ?_)
        rw [ExtMap.getElem?_insert, if_pos rfl]

end Alone

end TaskSetting

end Tarantula
