import Tarantula.DataService

/-! The write proxies against any answers of the ring and any outcomes of their calls. An
in-process call has a response with every error, the gRPC client has none. -/

namespace Tarantula

inductive Outcome
  | response (resp : Response)
  | noConnection (err : Fail)
  | applicationError (err : Fail)
  | transportError (err : Fail)
  deriving DecidableEq, Repr

namespace Outcome

def reply (remote : Bool) : Outcome → Reply
  | .response resp => ⟨some resp, none⟩
  | .noConnection err => ⟨some ⟨false, some err, []⟩, some err⟩
  | .applicationError err | .transportError err =>
    if remote then ⟨none, some err⟩ else ⟨some ⟨false, some err, []⟩, some err⟩

def succeeds : Outcome → Bool
  | .response resp => resp.successful
  | _ => false

def isError : Outcome → Bool
  | .applicationError _ | .transportError _ => true
  | _ => false

end Outcome

structure Attempt where
  nodes : List Node
  primary : Outcome
  slaves : Nat → Outcome

/-- The calls that a proxy makes, with their replies, and its response; `none` where it
uses a nil response or the first node of an empty ring. -/
structure ProxyRun where
  primaries : List (Node × Reply)
  slaves : List (Node × Reply)
  resp : Option Response

def ProxyRun.after (run : ProxyRun) (call : Node × Reply) : ProxyRun :=
  { run with primaries := call :: run.primaries }

inductive Verdict
  | nilResponse | again (err : Option Fail) | done (resp : Response)

namespace ProxyOutcomes

/-- `runUpdate`, `runDelete` and `runReset` drop the error of the call. -/
def judge (_ : Option Fail) (reply : Reply) : Verdict :=
  match reply.resp with
  | none => .nilResponse
  | some resp => if resp.successful then .done resp else .again resp.message

def judgeCreate (err : Option Fail) (reply : Reply) : Verdict :=
  match reply.err with
  | some _ => .again err
  | none => judge err reply

section Loop

variable (remote : Node → Bool) (judge : Option Fail → Reply → Verdict)
  (answer : Response → Option Fail → Response) (attempt : Nat → Attempt)

def loop : Nat → Nat → Option Fail → ProxyRun
  | 0, _, err => ⟨[], [], some ⟨false, err, []⟩⟩
  | reties + 1, i, err =>
    match (attempt i).nodes with
    | [] => ⟨[], [], none⟩
    | ringNode :: slaves =>
      let reply := (attempt i).primary.reply (remote ringNode)
      match judge err reply with
      | .nilResponse => ⟨[(ringNode, reply)], [], none⟩
      | .again err => (loop reties (i + 1) err).after (ringNode, reply)
      | .done resp =>
        ⟨[(ringNode, reply)],
          slaves.zipIdx.map fun (slave, j) => (slave, ((attempt i).slaves j).reply (remote slave)),
          some (answer resp err)⟩

end Loop

end ProxyOutcomes

inductive WriteProxy
  | create | update | delete | reset
  deriving DecidableEq, Repr

namespace WriteProxy

open ProxyOutcomes

/-- Whether a call goes through the connection: `clientReset` does not look at the endpoint. -/
def remote (self : String) : WriteProxy → Node → Bool
  | .reset, _ => true
  | _, n => n.rpcEndpoint ≠ self

section Proxies

variable (self : String) (attempt : Nat → Attempt)

def runCreate : ProxyRun :=
  loop (create.remote self) judgeCreate (fun _ err => ⟨true, err, []⟩) attempt retryMax 0 none

def runUpdate : ProxyRun :=
  loop (update.remote self) judge (fun resp _ => resp) attempt retryMax 0 none

def runDelete : ProxyRun :=
  loop (delete.remote self) judge (fun _ err => ⟨true, err, []⟩) attempt retryMax 0 none

def runReset : ProxyRun :=
  loop (reset.remote self) judge (fun _ err => ⟨true, err, []⟩) attempt retryMax 0 none

def run : WriteProxy → ProxyRun
  | .create => runCreate self attempt
  | .update => runUpdate self attempt
  | .delete => runDelete self attempt
  | .reset => runReset self attempt

end Proxies

/-- The proxy returns, reports a success only after one of a primary, and makes no more than
`RETRY_MAX` attempts. -/
def Survives (self : String) (attempt : Nat → Attempt) (p : WriteProxy) : Prop :=
  ∃ resp, (run self attempt p).resp = some resp ∧
    (resp.successful = true → ∃ c ∈ (run self attempt p).primaries, ∃ r ∈ c.2.resp, r.successful = true) ∧
    (run self attempt p).primaries.length ≤ retryMax

/-- There is a primary, and unless the proxy is `runCreate` a remote call to it is no error. -/
def Answered (self : String) (p : WriteProxy) (a : Attempt) : Prop :=
  ∃ ringNode ∈ a.nodes.head?, p = .create ∨ p.remote self ringNode = false ∨ a.primary.isError = false

end WriteProxy

namespace ProxyOutcomes

section Loop

variable {remote : Node → Bool} {judge : Option Fail → Reply → Verdict}
  {answer : Response → Option Fail → Response} {attempt : Nat → Attempt}

theorem loop_length (n i : Nat) (err : Option Fail) :
    (loop remote judge answer attempt n i err).primaries.length ≤ n := by
  induction n generalizing i err with
  | zero => simp [loop]
  | succ n ih =>
    rw [loop]
    split
    · simp
    · dsimp only
      split
      · simp
      · simpa [ProxyRun.after] using ih (i + 1) _
      · simp

theorem loop_succeeded (hdone : ∀ err reply resp, judge err reply = .done resp →
      resp ∈ reply.resp ∧ resp.successful = true) {n i : Nat} {err : Option Fail} {resp : Response}
    (h : (loop remote judge answer attempt n i err).resp = some resp) (hs : resp.successful = true) :
    ∃ c ∈ (loop remote judge answer attempt n i err).primaries, ∃ r ∈ c.2.resp, r.successful = true := by
  induction n generalizing i err with
  | zero =>
    obtain rfl := Option.some.inj h
    cases hs
  | succ n ih =>
    rw [loop] at h ⊢
    split at h
    · cases h
    · next ringNode slaves _ =>
      dsimp only at h ⊢
      cases hj : judge err ((attempt i).primary.reply (remote ringNode)) with
      | nilResponse =>
        rw [hj] at h
        cases h
      | again err' =>
        rw [hj] at h
        obtain ⟨c, hc, hr⟩ := ih h
        exact ⟨c, List.mem_cons_of_mem _ hc, hr⟩
      | done r =>
        obtain ⟨hr, hrs⟩ := hdone _ _ _ hj
        exact ⟨_, List.mem_cons_self, r, hr, hrs⟩

/-- The verdicts on the attempts follow from the outcomes: `ok` says of which attempts a
response can be used. -/
def Judges (remote : Node → Bool) (judge : Option Fail → Reply → Verdict) (ok : Attempt → Prop)
    (attempt : Nat → Attempt) : Prop :=
  ∀ i ringNode slaves err, (attempt i).nodes = ringNode :: slaves →
    match judge err ((attempt i).primary.reply (remote ringNode)) with
    | .nilResponse => ¬ ok (attempt i)
    | .again _ => ok (attempt i) ∧ (attempt i).primary.succeeds = false
    | .done _ => ok (attempt i) ∧ (attempt i).primary.succeeds = true

theorem loop_returns_iff {ok : Attempt → Prop} (hj : Judges remote judge ok attempt)
    (hok : ∀ a, a.nodes = [] → ¬ ok a) (n i : Nat) (err : Option Fail) :
    (∃ resp, (loop remote judge answer attempt n i err).resp = some resp) ↔
      ∀ k < n, (∀ j < k, (attempt (i + j)).primary.succeeds = false) → ok (attempt (i + k)) := by
  induction n generalizing i err with
  | zero => simp [loop]
  | succ n ih =>
    -- the attempts from `i` on are the first one and those from `i + 1` on
    have hsplit : (∀ k < n + 1, (∀ j < k, (attempt (i + j)).primary.succeeds = false) →
      ok (attempt (i + k))) ↔
        ok (attempt i) ∧ ((attempt i).primary.succeeds = false → ∀ k < n,
          (∀ j < k, (attempt (i + 1 + j)).primary.succeeds = false) → ok (attempt (i + 1 + k))) := by
      constructor
      · intro h
        refine ⟨h 0 (by omega) (by simp), fun h₀ k hk hf => ?_⟩
        have hnext := h (k + 1) (by omega)
        rw [show i + (k + 1) = i + 1 + k by omega] at hnext
        refine hnext fun j hjk => ?_
        cases j with
        | zero => exact h₀
        | succ j =>
          rw [show i + (j + 1) = i + 1 + j by omega]
          exact hf j (by omega)
      · rintro ⟨h₀, h⟩ k hk hf
        cases k with
        | zero => exact h₀
        | succ k =>
          rw [show i + (k + 1) = i + 1 + k by omega]
          refine h (hf 0 (by omega)) k (by omega) fun j hjk => ?_
          rw [show i + 1 + j = i + (j + 1) by omega]
          exact hf (j + 1) (by omega)
    rw [hsplit, loop]
    cases hn : (attempt i).nodes with
    | nil => simp [hok _ hn]
    | cons ringNode slaves =>
      have hv := hj i ringNode slaves err hn
      dsimp only
      cases hc : judge err ((attempt i).primary.reply (remote ringNode)) with
      | nilResponse =>
        rw [hc] at hv
        simp [hv]
      | again err' =>
        rw [hc] at hv
        simpa [ProxyRun.after, hv.1, hv.2] using ih (i + 1) err'
      | done resp =>
        rw [hc] at hv
        simp [hv.1, hv.2]

end Loop

theorem judge_done {err : Option Fail} {reply : Reply} {resp : Response} (h : judge err reply = .done resp) :
    resp ∈ reply.resp ∧ resp.successful = true := by
  unfold judge at h
  split at h
  · cases h
  · next r hr =>
    split at h
    · next hs =>
      cases h
      exact ⟨hr, hs⟩
    · cases h

theorem judgeCreate_done {err : Option Fail} {reply : Reply} {resp : Response}
    (h : judgeCreate err reply = .done resp) : resp ∈ reply.resp ∧ resp.successful = true := by
  unfold judgeCreate at h
  split at h
  · cases h
  · exact judge_done h

end ProxyOutcomes

namespace WriteProxy

open ProxyOutcomes

variable (self : String) (attempt : Nat → Attempt)

theorem answered_of_cons {p : WriteProxy} {a : Attempt} {ringNode : Node} {slaves : List Node}
    (h : a.nodes = ringNode :: slaves) : p.Answered self a ↔
      p = .create ∨ p.remote self ringNode = false ∨ a.primary.isError = false := by
  simp [Answered, h]

theorem judge_judges {p : WriteProxy} (hp : p ≠ .create) :
    Judges (p.remote self) judge (p.Answered self) attempt := by
  intro i ringNode slaves err hn
  simp only [answered_of_cons self hn, hp, false_or]
  cases hr : p.remote self ringNode <;> cases ho : (attempt i).primary with
  | response resp =>
    cases hs : resp.successful <;> simp [judge, Outcome.reply, Outcome.succeeds, Outcome.isError, hs]
  | _ => simp [judge, Outcome.reply, Outcome.succeeds, Outcome.isError]

theorem judgeCreate_judges : Judges (create.remote self) judgeCreate (create.Answered self) attempt := by
  intro i ringNode slaves err hn
  simp only [answered_of_cons self hn, true_or]
  cases hr : create.remote self ringNode <;> cases ho : (attempt i).primary with
  | response resp =>
    cases hs : resp.successful <;> simp [judgeCreate, judge, Outcome.reply, Outcome.succeeds, hs]
  | _ => simp [judgeCreate, Outcome.reply, Outcome.succeeds]

/-- What is shared by the proxies: the loop, with verdicts that follow from the outcomes. -/
theorem survives_loop_iff {p : WriteProxy} {judge : Option Fail → Reply → Verdict}
    {answer : Response → Option Fail → Response}
    (hrun : run self attempt p = loop (p.remote self) judge answer attempt retryMax 0 none)
    (hdone : ∀ err reply resp, judge err reply = .done resp → resp ∈ reply.resp ∧ resp.successful = true)
    (hj : Judges (p.remote self) judge (p.Answered self) attempt) :
    p.Survives self attempt ↔ ∀ i < retryMax,
      (∀ k < i, (attempt k).primary.succeeds = false) → p.Answered self (attempt i) := by
  have hempty : ∀ a : Attempt, a.nodes = [] → ¬ p.Answered self a := fun a ha => by simp [Answered, ha]
  have hreturns :
      (∃ resp, (loop (p.remote self) judge answer attempt retryMax 0 none).resp = some resp) ↔ _ :=
    loop_returns_iff hj hempty retryMax 0 none
  simp only [Nat.zero_add] at hreturns
  rw [← hreturns, Survives, hrun]
  constructor
  · rintro ⟨resp, h, _⟩
    exact ⟨resp, h⟩
  · rintro ⟨resp, h⟩
    exact ⟨resp, h, loop_succeeded hdone h, loop_length _ _ _⟩

/-- A proxy survives exactly where every attempt it comes to is answered. -/
theorem survives_iff (p : WriteProxy) : p.Survives self attempt ↔ ∀ i < retryMax,
    (∀ k < i, (attempt k).primary.succeeds = false) → p.Answered self (attempt i) := by
  cases p with
  | create =>
    exact survives_loop_iff self attempt rfl (fun _ _ _ => judgeCreate_done) (judgeCreate_judges self attempt)
  | update | delete | reset =>
    exact survives_loop_iff self attempt rfl (fun _ _ _ => judge_done) (judge_judges self attempt (by decide))

/-- A remote primary answers a stale update with an error, and a remote delete or reset is
lost: the response that the proxy looks at is nil. -/
theorem nil_response_used :
    ¬ update.Survives "a:7001" (fun _ =>
      ⟨[Node.ofEndpoint "b:7001"], .applicationError (.revision 6 5), fun _ => .transportError .transport⟩) ∧
    ∀ p ∈ [delete, reset], ¬ p.Survives "a:7001" (fun _ =>
      ⟨[Node.ofEndpoint "b:7001"], .transportError .transport, fun _ => .transportError .transport⟩) := by
  constructor
  · rintro ⟨resp, h, _⟩
    cases h
  · intro p hp
    simp only [List.mem_cons, List.not_mem_nil, or_false] at hp
    rcases hp with rfl | rfl <;> rintro ⟨resp, h, _⟩ <;> cases h

end WriteProxy

namespace Env

open ProxyOutcomes WriteProxy

section Refinement

variable {env : Env} {call : Call} {w : World} {attempt : Nat → Attempt} {remote : Node → Bool}

/-- The stores and the header when attempt `i` begins, where those before it have failed. -/
def trail (env : Env) (call : Call) (w : World) : Nat → World
  | 0 => w
  | i + 1 =>
    match env.ring i with
    | [] => trail env call w i
    | ringNode :: _ => (call i 0 ringNode (trail env call w i)).1

/-- The attempts that a proxy makes among the stores of the cluster. -/
def Meets (env : Env) (call : Call) (remote : Node → Bool) (w : World) (attempt : Nat → Attempt) : Prop :=
  ∀ i, (attempt i).nodes = env.ring i ∧ ∀ ringNode slaves, env.ring i = ringNode :: slaves →
    (attempt i).primary.reply (remote ringNode) = (call i 0 ringNode (env.trail call w i)).2

theorem trail_succ {i : Nat} {ringNode : Node} {slaves : List Node} (hr : env.ring i = ringNode :: slaves) :
    env.trail call w (i + 1) = (call i 0 ringNode (env.trail call w i)).1 := by
  simp [trail, hr]

theorem runWrite_resp (hm : env.Meets call remote w attempt) (answer : Response → Option Fail → Response)
    (n i : Nat) (err : Option Fail) :
    (env.runWrite call answer n i err (env.trail call w i)).map (·.2) =
      (loop remote judge answer attempt n i err).resp := by
  induction n generalizing i err with
  | zero => rfl
  | succ n ih =>
    obtain ⟨hnodes, hreply⟩ := hm i
    rw [runWrite, loop, hnodes]
    cases hr : env.ring i with
    | nil => rfl
    | cons ringNode slaves =>
      have hnext := ih (i + 1)
      rw [trail_succ hr] at hnext
      simp only [hreply ringNode slaves hr]
      generalize call i 0 ringNode (env.trail call w i) = r at hnext
      obtain ⟨w', ⟨_ | resp, _⟩⟩ := r
      · rfl
      · cases hs : resp.successful <;> simp [judge, hs, ProxyRun.after, hnext]

theorem createLoop_resp {req : Request} (hm : env.Meets (env.clientCreate req) remote w attempt)
    (n i : Nat) (err : Option Fail) :
    (env.createLoop req n i err (env.trail (env.clientCreate req) w i)).map (·.2) =
      (loop remote judgeCreate (fun _ err => ⟨true, err, []⟩) attempt n i err).resp := by
  induction n generalizing i err with
  | zero => rfl
  | succ n ih =>
    obtain ⟨hnodes, hreply⟩ := hm i
    rw [createLoop, loop, hnodes]
    cases hr : env.ring i with
    | nil => rfl
    | cons ringNode slaves =>
      have hnext := ih (i + 1)
      rw [trail_succ hr] at hnext
      simp only [hreply ringNode slaves hr]
      generalize env.clientCreate req i 0 ringNode (env.trail (env.clientCreate req) w i) = r at hnext
      obtain ⟨w', ⟨resp, _ | e⟩⟩ := r
      · cases resp with
        | none => rfl
        | some resp => cases hs : resp.successful <;> simp [judgeCreate, judge, hs, ProxyRun.after, hnext]
      · simp [judgeCreate, ProxyRun.after, hnext]

/-- A handler that reports an error in its response also returns it, or no error at all. -/
def Reports (handler : Handler) : Prop :=
  ∀ db now req, ∃ o : Outcome, (handler db now req).reply = o.reply false

theorem serve_outcome (d : Done) : ∃ o : Outcome, (DataService.serve d).reply = o.reply false := by
  cases he : d.err with
  | none => exact ⟨.response (DataService.respond d), by simp [DataService.serve, Outcome.reply, he]⟩
  | some e => exact ⟨.applicationError e, by simp [DataService.serve, DataService.respond, Outcome.reply, he]⟩

theorem remote_outcome {handler : Handler} (hh : Reports handler) (noConn : Fail) (req : Request) (i j : Nat)
    (target : Node) (w : World) :
    ∃ o : Outcome, o.reply true = (env.remote handler noConn req i j target w).2 := by
  unfold remote
  dsimp only
  cases env.link i j with
  | noConn => exact ⟨.noConnection noConn, rfl⟩
  | requestLost => exact ⟨.transportError .transport, rfl⟩
  | replyLost => exact ⟨.transportError .transport, rfl⟩
  | up =>
    obtain ⟨o, ho⟩ := hh (w.stores target.rpcEndpoint) (env.clock i j) (req.withHeader w.header)
    rw [ho]
    cases o with
    | response resp => exact ⟨.response resp, rfl⟩
    | noConnection e | applicationError e | transportError e => exact ⟨.applicationError e, rfl⟩

theorem client_outcome {handler : Handler} (hh : Reports handler) (noConn : Fail) (req : Request) (i j : Nat)
    (target : Node) (w : World) : ∃ o : Outcome,
      o.reply (decide (target.rpcEndpoint ≠ env.self)) = (env.client handler noConn req i j target w).2 := by
  unfold client
  split
  · next hself =>
    obtain ⟨o, ho⟩ := hh (w.stores env.self) (env.clock i j) (req.withHeader w.header)
    exact ⟨o, by simp [hself, ho]⟩
  · next hself =>
    obtain ⟨o, ho⟩ : ∃ o : Outcome, o.reply true = (env.remote handler noConn req i j target w).2 :=
      remote_outcome hh noConn req i j target w
    exact ⟨o, by simpa [hself] using ho⟩

theorem exists_meets (hcall : ∀ i j n w, ∃ o : Outcome, o.reply (remote n) = (call i j n w).2) :
    ∃ attempt, env.Meets call remote w attempt := by
  choose outcome ho using hcall
  refine ⟨fun i => ⟨env.ring i,
    match env.ring i with
    | [] => .transportError .transport
    | ringNode :: _ => outcome i 0 ringNode (env.trail call w i),
    fun j => .transportError .transport⟩, fun i => ⟨rfl, fun ringNode slaves hr => ?_⟩⟩
  dsimp only
  rw [hr]
  exact ho i 0 ringNode _

/-- A proxy among the stores of the cluster. -/
def runProxy (env : Env) (req : Request) (stores : String → Db) : WriteProxy → Option (World × Response)
  | .create => env.runCreate req stores
  | .update => env.runUpdate req stores
  | .delete => env.runDelete req stores
  | .reset => env.runReset req stores

theorem runProxy_resp (env : Env) (req : Request) (stores : String → Db) (p : WriteProxy) :
    ∃ attempt : Nat → Attempt, (∀ i, (attempt i).nodes = env.ring i) ∧
      (env.runProxy req stores p).map (·.2) = (p.run env.self attempt).resp := by
  cases p with
  | create =>
    obtain ⟨attempt, hm⟩ : ∃ attempt, env.Meets (env.clientCreate req) (WriteProxy.create.remote env.self)
        ⟨stores, req.data.header⟩ attempt :=
      exists_meets (client_outcome (fun _ _ _ => serve_outcome _) _ req)
    exact ⟨attempt, fun i => (hm i).1, createLoop_resp hm retryMax 0 none⟩
  | update =>
    obtain ⟨attempt, hm⟩ : ∃ attempt, env.Meets (env.clientUpdate req) (WriteProxy.update.remote env.self)
        ⟨stores, req.data.header⟩ attempt :=
      exists_meets (client_outcome (fun _ _ _ => serve_outcome _) _ req)
    exact ⟨attempt, fun i => (hm i).1, runWrite_resp hm _ retryMax 0 none⟩
  | delete =>
    obtain ⟨attempt, hm⟩ : ∃ attempt, env.Meets (env.clientDelete req) (WriteProxy.delete.remote env.self)
        ⟨stores, req.data.header⟩ attempt :=
      exists_meets (client_outcome (fun _ _ _ => ⟨.response _, rfl⟩) _ req)
    exact ⟨attempt, fun i => (hm i).1, runWrite_resp hm _ retryMax 0 none⟩
  | reset =>
    obtain ⟨attempt, hm⟩ : ∃ attempt, env.Meets (env.clientReset req) (WriteProxy.reset.remote env.self)
        ⟨stores, req.data.header⟩ attempt :=
      exists_meets (remote_outcome (fun _ _ _ => serve_outcome _) _ req)
    exact ⟨attempt, fun i => (hm i).1, runWrite_resp hm _ retryMax 0 none⟩

end Refinement

end Env

end Tarantula
