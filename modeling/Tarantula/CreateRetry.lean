import Tarantula.ProxyOutcomes
import Tarantula.Runs

/-! A create that is sent to a remote primary. A request is served some time after it is
sent, or never; the proxy gives an attempt up when no answer has come within
`CLIENT_TIMEOUT`. -/

namespace Tarantula

inductive CreatePhase
  | ready | waiting | returned (resp : Response)
  deriving DecidableEq, Repr

/-- The store of the primary and a call of `runCreate`: its `RetryTrack`, the number of the
attempt and what the ring has answered to it, the attempts whose requests were sent and the
replies to those that were served, and the slaves that were sent the create. `wrote` is set
where the primary has applied a request of the call. -/
structure CreateCall where
  db : Db
  wrote : Bool
  reties : Nat
  err : Option Fail
  attempt : Nat
  nodes : List Node
  sent : List Nat
  served : List (Nat × Reply)
  told : List Node
  phase : CreatePhase

inductive CreateEvent
  | ask (nodes : List Node)
  | noConn (nodes : List Node)
  | serve (k : Nat) (now : UInt64)
  | answer
  | expire
  | leave
  | other (db : Db)

/-- A reply as the gRPC client returns it. -/
def Reply.received (r : Reply) : Reply := if r.err.isSome then ⟨none, r.err⟩ else r

namespace CreateCall

open ProxyOutcomes

def initial (db : Db) : CreateCall := ⟨db, false, retryMax, none, 0, [], [], [], [], .ready⟩

def again (s : CreateCall) (err : Option Fail) : CreateCall :=
  { s with reties := s.reties - 1, err := err, attempt := s.attempt + 1, phase := .ready }

variable (hash32 : Bytes → UInt32) (req : Request)

/-- `none` where the event cannot happen. -/
def step (s : CreateCall) : CreateEvent → Option CreateCall
  | .ask nodes =>
    if s.phase = .ready ∧ 0 < s.reties ∧ nodes ≠ [] then
      some { s with nodes := nodes, sent := s.attempt :: s.sent, phase := .waiting }
    else none
  | .noConn nodes =>
    if s.phase = .ready ∧ 0 < s.reties ∧ nodes ≠ [] then some { s.again s.err with nodes := nodes } else none
  | .serve k now =>
    if k ∈ s.sent ∧ s.served.lookup k = none then
      let d := DataService.create hash32 s.db now req
      some { s with
        db := d.db, wrote := s.wrote || d.reply.err.isNone, served := (k, d.reply) :: s.served }
    else none
  | .answer =>
    if s.phase = .waiting then
      (s.served.lookup s.attempt).bind fun reply =>
        match judgeCreate s.err reply.received with
        | .nilResponse => none
        | .again err => some (s.again err)
        | .done _ => some { s with told := s.nodes.tail, phase := .returned ⟨true, s.err, []⟩ }
    else none
  | .expire => if s.phase = .waiting then some (s.again s.err) else none
  | .leave =>
    if s.phase = .ready ∧ s.reties = 0 then some { s with phase := .returned ⟨false, s.err, []⟩ } else none
  | .other db => some { s with db := db }

def address : Address :=
  ⟨DataService.ringPrefixOf hash32 req, req.data.header.factoryId, req.data.header.classId, req.data.key⟩

def HoldsOwn (s : CreateCall) : Prop := s.wrote = true ∧ (address hash32 req).row s.db ≠ none

def Honest (s : CreateCall) : Prop :=
  ∀ resp, s.phase = .returned resp →
    (resp.successful = false → ¬ s.HoldsOwn hash32 req) ∧
    (s.HoldsOwn hash32 req → resp.successful = true ∧ s.told = s.nodes.tail)

/-- The primary has applied the request of the current attempt. -/
def Applied (s : CreateCall) : Prop := ∃ reply ∈ s.served.lookup s.attempt, reply.err = none

/-- No request is served after its attempt was given up, and no attempt is given up after
its request was applied. -/
def Timely (s : CreateCall) : CreateEvent → Prop
  | .serve k _ => s.phase = .waiting ∧ k = s.attempt
  | .expire => ¬ s.Applied
  | _ => True

instance (s : CreateCall) : Decidable (s.HoldsOwn hash32 req) := inferInstanceAs (Decidable (_ ∧ _))

instance (s : CreateCall) : Decidable s.Applied := by
  unfold Applied
  infer_instance

instance (s : CreateCall) (e : CreateEvent) : Decidable (s.Timely e) := by
  unfold Timely
  split <;> infer_instance

/-- Once the primary has written, the call waits for the reply that says so, or has
returned with it. -/
structure Sound (s : CreateCall) : Prop where
  replies : ∀ c ∈ s.served, c.2.err = none → ∃ resp, c.2.resp = some resp ∧ resp.successful = true
  wrote : s.wrote = true → s.phase = .waiting ∧ s.Applied ∨
    ∃ resp, s.phase = .returned resp ∧ resp.successful = true ∧ s.told = s.nodes.tail

variable {hash32 req} {s t : CreateCall}

theorem Sound.initial (db : Db) : Sound (initial db) :=
  ⟨by simp [CreateCall.initial], fun h => by cases h⟩

theorem Sound.unwritten (h : Sound s) (hp : s.phase = .ready) : s.wrote = false := by
  by_contra hw
  rcases h.wrote (by simpa using hw) with ⟨hwait, _⟩ | ⟨resp, hret, _⟩
  · rw [hp] at hwait
    cases hwait
  · rw [hp] at hret
    cases hret

theorem Sound.of_unwritten (h : Sound s) (hserved : t.served = s.served) (hw : t.wrote = false) : Sound t :=
  ⟨hserved ▸ h.replies, fun hw' => by simp [hw] at hw'⟩

theorem create_succeeds {db : Db} {now : UInt64}
    (h : (DataService.create hash32 db now req).reply.err = none) :
    ∃ resp, (DataService.create hash32 db now req).reply.resp = some resp ∧ resp.successful = true := by
  refine ⟨_, rfl, ?_⟩
  have he : (LocalData.create db now ⟨DataService.ringPrefixOf hash32 req, req.data⟩).err = none := h
  simp [DataService.respond, he]

theorem Sound.serve (h : Sound s) {k : Nat} {now : UInt64} (hok : s.Timely (.serve k now))
    (hs : s.step hash32 req (.serve k now) = some t) : Sound t := by
  obtain ⟨hwait, rfl⟩ := hok
  obtain ⟨hsent, ht⟩ := Option.ite_none_right_eq_some.mp hs
  cases ht
  -- a request is served once, so the call had not written before
  have hw : s.wrote = false := by
    by_contra hw
    rcases h.wrote (by simpa using hw) with ⟨_, reply, hreply, _⟩ | ⟨resp, hret, _⟩
    · rw [hsent.2] at hreply
      cases hreply
    · rw [hwait] at hret
      cases hret
  refine ⟨?_, fun hw' => .inl ⟨hwait, ?_⟩⟩
  · intro c hc he
    rcases List.mem_cons.mp hc with rfl | hc
    · exact create_succeeds he
    · exact h.replies c hc he
  · rw [hw, Bool.false_or, Option.isNone_iff_eq_none] at hw'
    exact ⟨_, by simp, hw'⟩

theorem mem_of_lookup {l : List (Nat × Reply)} {k : Nat} {reply : Reply} (h : l.lookup k = some reply) :
    (k, reply) ∈ l := by
  obtain ⟨l₁, l₂, rfl, _⟩ := List.lookup_eq_some_iff.mp h
  simp

theorem Sound.answer (h : Sound s) (hs : s.step hash32 req .answer = some t) : Sound t := by
  obtain ⟨hwait, hs⟩ := Option.ite_none_right_eq_some.mp hs
  obtain ⟨reply, hreply, hs⟩ := Option.bind_eq_some_iff.mp hs
  have happlied : s.wrote = true → reply.err = none := by
    intro hw
    rcases h.wrote hw with ⟨_, reply', hreply', he⟩ | ⟨resp, hret, _⟩
    · obtain rfl : reply = reply' := Option.some.inj (hreply.symm.trans hreply')
      exact he
    · rw [hwait] at hret
      cases hret
  have hverdict : reply.err = none → ∃ resp, judgeCreate s.err reply.received = .done resp := by
    intro he
    obtain ⟨resp, hresp, hsucc⟩ : ∃ resp, reply.resp = some resp ∧ resp.successful = true :=
      h.replies _ (mem_of_lookup hreply) he
    exact ⟨resp, by simp [Reply.received, judgeCreate, judge, he, hresp, hsucc]⟩
  cases hj : judgeCreate s.err reply.received with
  | nilResponse => simp [hj] at hs
  | again err =>
    rw [hj] at hs
    obtain rfl := Option.some.inj hs
    refine h.of_unwritten rfl ?_
    show s.wrote = false
    by_contra hw
    obtain ⟨resp, hdone⟩ := hverdict (happlied (by simpa using hw))
    rw [hj] at hdone
    cases hdone
  | done resp =>
    rw [hj] at hs
    obtain rfl := Option.some.inj hs
    exact ⟨h.replies, fun _ => .inr ⟨_, rfl, rfl, rfl⟩⟩

theorem Sound.step (h : Sound s) {e : CreateEvent} (hok : s.Timely e)
    (hs : s.step hash32 req e = some t) : Sound t := by
  cases e with
  | ask nodes =>
    obtain ⟨hp, ht⟩ := Option.ite_none_right_eq_some.mp hs
    cases ht
    exact h.of_unwritten rfl (h.unwritten hp.1)
  | noConn nodes =>
    obtain ⟨hp, ht⟩ := Option.ite_none_right_eq_some.mp hs
    cases ht
    exact h.of_unwritten rfl (h.unwritten hp.1)
  | serve k now => exact h.serve hok hs
  | answer => exact h.answer hs
  | expire =>
    obtain ⟨hwait, ht⟩ := Option.ite_none_right_eq_some.mp hs
    cases ht
    refine h.of_unwritten rfl ?_
    show s.wrote = false
    by_contra hw
    rcases h.wrote (by simpa using hw) with ⟨_, happlied⟩ | ⟨resp, hret, _⟩
    · exact hok happlied
    · rw [hwait] at hret
      cases hret
  | leave =>
    obtain ⟨hp, ht⟩ := Option.ite_none_right_eq_some.mp hs
    cases ht
    exact h.of_unwritten rfl (h.unwritten hp.1)
  | other db =>
    obtain rfl := Option.some.inj hs
    exact ⟨h.replies, h.wrote⟩

/-- Where no answer is lost that says the create was applied, a failure that is reported
means that the call has written no record. -/
theorem create_honest {db : Db} (h : Reaches (step hash32 req) Timely (initial db) s) :
    s.Honest hash32 req := by
  have hs : Sound s := h.invariant (.initial db) fun s e t hs hok hst => hs.step hok hst
  intro resp hresp
  have hsucc : s.wrote = true → resp.successful = true ∧ s.told = s.nodes.tail := by
    intro hw
    rcases hs.wrote hw with ⟨hwait, _⟩ | ⟨resp', hret, hrest⟩
    · rw [hresp] at hwait
      cases hwait
    · rw [hresp] at hret
      cases hret
      exact hrest
  refine ⟨fun hfail hown => ?_, fun hown => hsucc hown.1⟩
  rw [(hsucc hown.1).1] at hfail
  cases hfail

def retriedCreate : Request := ⟨7, ⟨[107], [1], ⟨0, 1, 1, 0, 0, true, 0⟩⟩⟩

/-- The first request is lost, the second one is applied and answered. -/
theorem create_honest_sample : ∃ s, Reaches (step Murmur3.sum32 retriedCreate) Timely (initial ∅) s ∧
    s.phase = .returned ⟨true, none, []⟩ ∧ s.HoldsOwn Murmur3.sum32 retriedCreate ∧
      s.told = s.nodes.tail := by
  obtain ⟨s, hr, hp, hown⟩ := exists_reaches_of_checkedRun (step Murmur3.sum32 retriedCreate) Timely
    (fun s => s.phase = .returned ⟨true, none, []⟩ ∧ s.HoldsOwn Murmur3.sum32 retriedCreate) (initial ∅)
    [.ask [Node.ofEndpoint "b:7001", Node.ofEndpoint "c:7001"], .expire,
      .ask [Node.ofEndpoint "b:7001", Node.ofEndpoint "c:7001"], .serve 1 1000, .answer] (by decide +kernel)
  exact ⟨s, hr, hp, hown, ((create_honest hr _ hp).2 hown).2⟩

/-- The answer to the first request is lost, the second request is refused because the record
exists, and the third one is lost. Or the first request is served after the call has
returned. The caller is told of a failure, and no slave gets the record. -/
theorem create_dishonest :
    (∃ s, Reaches (step Murmur3.sum32 retriedCreate) (fun _ _ => True) (initial ∅) s ∧
      s.phase = .returned ⟨false, none, []⟩ ∧ s.HoldsOwn Murmur3.sum32 retriedCreate ∧ s.sent.length = 3 ∧
      s.told = []) ∧
    ∃ s, Reaches (step Murmur3.sum32 retriedCreate) (fun _ _ => True) (initial ∅) s ∧
      s.phase = .returned ⟨false, none, []⟩ ∧ s.HoldsOwn Murmur3.sum32 retriedCreate ∧ s.told = [] := by
  constructor
  · exact exists_reaches_of_checkedRun (step Murmur3.sum32 retriedCreate) (fun _ _ => True)
      (fun s => s.phase = .returned ⟨false, none, []⟩ ∧ s.HoldsOwn Murmur3.sum32 retriedCreate ∧
        s.sent.length = 3 ∧ s.told = []) (initial ∅)
      [.ask [Node.ofEndpoint "b:7001", Node.ofEndpoint "c:7001"], .serve 0 1000, .expire,
        .ask [Node.ofEndpoint "b:7001", Node.ofEndpoint "c:7001"], .serve 1 2000, .answer,
        .ask [Node.ofEndpoint "b:7001", Node.ofEndpoint "c:7001"], .expire, .leave] (by decide +kernel)
  · exact exists_reaches_of_checkedRun (step Murmur3.sum32 retriedCreate) (fun _ _ => True)
      (fun s => s.phase = .returned ⟨false, none, []⟩ ∧ s.HoldsOwn Murmur3.sum32 retriedCreate ∧
        s.told = []) (initial ∅)
      [.ask [Node.ofEndpoint "b:7001", Node.ofEndpoint "c:7001"], .expire,
        .ask [Node.ofEndpoint "b:7001", Node.ofEndpoint "c:7001"], .expire,
        .ask [Node.ofEndpoint "b:7001", Node.ofEndpoint "c:7001"], .expire, .leave, .serve 0 1000]
          (by decide +kernel)

section Simulation

variable {env : Env} {p : Node} {n i : Nat} {err : Option Fail} {w : World} {slaves : List Node}

/-- The state at the head of the loop, as `createLoop` has it. -/
structure AtHead (req : Request) (p : Node) (n i : Nat) (err : Option Fail) (w : World)
    (s : CreateCall) : Prop where
  ready : s.phase = .ready
  reties : s.reties = n
  attempt : s.attempt = i
  err : s.err = err
  told : s.told = []
  unserved : ∀ k, i ≤ k → s.served.lookup k = none
  db : s.db = w.stores p.rpcEndpoint
  header : w.header = req.data.header

def asked (s : CreateCall) (nodes : List Node) : CreateCall :=
  { s with nodes := nodes, sent := s.attempt :: s.sent, phase := .waiting }

def answered (hash32 : Bytes → UInt32) (req : Request) (s : CreateCall) (now : UInt64) : CreateCall :=
  let d := DataService.create hash32 s.db now req
  { s with db := d.db, wrote := s.wrote || d.reply.err.isNone, served := (s.attempt, d.reply) :: s.served }

theorem AtHead.ask (h : AtHead req p (n + 1) i err w s) (slaves : List Node) :
    s.step hash32 req (.ask (p :: slaves)) = some (s.asked (p :: slaves)) := by
  simp [CreateCall.step, asked, h.ready, h.reties]

theorem AtHead.serve (h : AtHead req p (n + 1) i err w s) (nodes : List Node) (now : UInt64) :
    (s.asked nodes).step hash32 req (.serve s.attempt now) =
      some ((s.asked nodes).answered hash32 req now) := by
  simp [CreateCall.step, asked, answered, h.unserved _ h.attempt.ge]

theorem AtHead.again (h : AtHead req p (n + 1) i err w s) {t : CreateCall} (hreties : t.reties = s.reties)
    (hattempt : t.attempt = s.attempt) (htold : t.told = s.told)
    (hserved : ∀ k, i < k → t.served.lookup k = s.served.lookup k) {w' : World}
    (hdb : t.db = w'.stores p.rpcEndpoint) (hheader : w'.header = w.header) (err' : Option Fail) :
    AtHead req p n (i + 1) err' w' (t.again err') where
  ready := rfl
  reties := by simp [CreateCall.again, hreties, h.reties]
  attempt := by simp [CreateCall.again, hattempt, h.attempt]
  err := rfl
  told := htold.trans h.told
  unserved k hk := (hserved k hk).trans (h.unserved k (by omega))
  db := hdb
  header := hheader.trans h.header

def servedBy (env : Env) (req : Request) (p : Node) (i : Nat) (w : World) : World :=
  ⟨Function.update w.stores p.rpcEndpoint
    (DataService.create env.hash32 (w.stores p.rpcEndpoint) (env.clock i 0) req).db, w.header⟩

theorem clientCreate_eq (hp : p.rpcEndpoint ≠ env.self) (hh : w.header = req.data.header) :
    env.clientCreate req i 0 p w =
      match env.link i 0 with
      | .noConn => (w, ⟨some ⟨false, some .noTcpConnect, []⟩, some .noTcpConnect⟩)
      | .requestLost => (w, ⟨none, some .transport⟩)
      | .replyLost => (servedBy env req p i w, ⟨none, some .transport⟩)
      | .up => (servedBy env req p i w,
          (DataService.create env.hash32 (w.stores p.rpcEndpoint) (env.clock i 0) req).reply.received) := by
  have hreq : req.withHeader w.header = req := by rw [hh]; rfl
  rw [Env.clientCreate, Env.client, if_neg hp, Env.remote, hreq]
  cases env.link i 0 <;> rfl

theorem AtHead.answered (h : AtHead req p (n + 1) i err w s) (nodes : List Node) (err' : Option Fail) :
    AtHead req p n (i + 1) err' (servedBy env req p i w)
      (((s.asked nodes).answered env.hash32 req (env.clock i 0)).again err') := by
  refine h.again (t := (s.asked nodes).answered env.hash32 req (env.clock i 0)) rfl rfl rfl
    (fun k hk => ?_) ?_ (rfl : (servedBy env req p i w).header = w.header) err'
  · have hne : (k == s.attempt) = false := by
      rw [h.attempt]
      simpa using hk.ne'
    show List.lookup k ((s.attempt, _) :: s.served) = _
    rw [List.lookup_cons, hne]
  · simp [CreateCall.answered, asked, servedBy, h.db]

theorem received_create (db : Db) (now : UInt64) :
    (∃ e, (DataService.create hash32 db now req).reply.received = ⟨none, some e⟩) ∨
      ∃ r, (DataService.create hash32 db now req).reply.received = ⟨some r, none⟩ ∧ r.successful = true := by
  cases he : (DataService.create hash32 db now req).reply.err with
  | some e => exact .inl ⟨e, by simp [Reply.received, he]⟩
  | none =>
    obtain ⟨r, hr, hsucc⟩ := create_succeeds he
    exact .inr ⟨r, by simp [Reply.received, ← he, ← hr], hsucc⟩

theorem AtHead.answer (h : AtHead req p (n + 1) i err w s) (nodes : List Node) (now : UInt64) :
    ((s.asked nodes).answered hash32 req now).step hash32 req .answer =
      match judgeCreate err (DataService.create hash32 (w.stores p.rpcEndpoint) now req).reply.received with
      | .nilResponse => none
      | .again err => some (((s.asked nodes).answered hash32 req now).again err)
      | .done _ => some
          { (s.asked nodes).answered hash32 req now with
            told := nodes.tail, phase := .returned ⟨true, err, []⟩ } := by
  simp [CreateCall.step, CreateCall.answered, asked, h.db, h.err]

theorem createLoop_reaches (hring : ∀ i, ∃ slaves, env.ring i = p :: slaves) (hp : p.rpcEndpoint ≠ env.self)
    (h : AtHead req p n i err w s) {w' : World} {resp : Response}
    (hloop : env.createLoop req n i err w = some (w', resp)) :
    ∃ t k w₁, Reaches (step env.hash32 req) (fun _ _ => True) s t ∧ t.phase = .returned resp ∧
      t.db = w₁.stores p.rpcEndpoint ∧
      w' = Env.callEach (env.clientCreate req) k 1 (env.schedule t.told) w₁ := by
  induction n generalizing i err w s with
  | zero =>
    obtain ⟨rfl, rfl⟩ := Prod.mk.inj (Option.some.inj hloop)
    refine ⟨{ s with phase := .returned ⟨false, s.err, []⟩ }, 0, w, .single ⟨.leave, trivial, ?_⟩,
      by rw [h.err], h.db, ?_⟩
    · simp [CreateCall.step, h.ready, h.reties]
    · show w = Env.callEach _ 0 1 (env.schedule s.told) w
      rw [h.told, (env.schedule_perm []).eq_nil]
      rfl
  | succ n ih =>
    obtain ⟨slaves, hr⟩ := hring i
    rw [Env.createLoop, hr] at hloop
    dsimp only at hloop
    rw [clientCreate_eq hp h.header] at hloop
    cases hl : env.link i 0 with
    | noConn =>
      rw [hl] at hloop
      dsimp only at hloop
      obtain ⟨t, k, w₁, hreach, hrest⟩ := ih (h.again (t := { s with nodes := p :: slaves }) rfl rfl rfl
        (fun _ _ => rfl) h.db rfl err) hloop
      refine ⟨t, k, w₁, .head ⟨.noConn (p :: slaves), trivial, ?_⟩ hreach, hrest⟩
      simp [CreateCall.step, CreateCall.again, h.ready, h.reties, h.err]
    | requestLost =>
      rw [hl] at hloop
      dsimp only at hloop
      obtain ⟨t, k, w₁, hreach, hrest⟩ := ih (h.again (t := s.asked (p :: slaves)) rfl rfl rfl
        (fun _ _ => rfl) h.db rfl err) hloop
      refine ⟨t, k, w₁, .head ⟨_, trivial, h.ask slaves⟩ (.head ⟨.expire, trivial, ?_⟩ hreach), hrest⟩
      rw [← h.err]
      rfl
    | replyLost =>
      rw [hl] at hloop
      dsimp only at hloop
      obtain ⟨t, k, w₁, hreach, hrest⟩ := ih (h.answered (p :: slaves) err) hloop
      refine ⟨t, k, w₁, .head ⟨_, trivial, h.ask slaves⟩
        (.head ⟨_, trivial, h.serve (p :: slaves) (env.clock i 0)⟩
        (.head ⟨.expire, trivial, ?_⟩ hreach)), hrest⟩
      rw [← h.err]
      rfl
    | up =>
      rw [hl] at hloop
      dsimp only at hloop
      have hanswer : ((s.asked (p :: slaves)).answered env.hash32 req (env.clock i 0)).step env.hash32 req
          .answer = _ := h.answer (p :: slaves) (env.clock i 0)
      rcases received_create (w.stores p.rpcEndpoint) (env.clock i 0) with ⟨e, hrec⟩ | ⟨r, hrec, hsucc⟩
      · rw [hrec] at hloop hanswer
        obtain ⟨t, k, w₁, hreach, hrest⟩ := ih (h.answered (p :: slaves) err) hloop
        exact ⟨t, k, w₁, .head ⟨_, trivial, h.ask slaves⟩ (.head ⟨_, trivial, h.serve (p :: slaves) _⟩
          (.head ⟨.answer, trivial, hanswer⟩ hreach)), hrest⟩
      · rw [hrec] at hloop hanswer
        simp only [judgeCreate, judge, hsucc, if_true] at hloop hanswer
        obtain ⟨rfl, rfl⟩ := Prod.mk.inj (Option.some.inj hloop)
        refine ⟨_, i, servedBy env req p i w, .head ⟨_, trivial, h.ask slaves⟩ (.head
          ⟨_, trivial, h.serve (p :: slaves) _⟩ (.single ⟨.answer, trivial, hanswer⟩)), rfl, ?_, rfl⟩
        simp [CreateCall.answered, asked, servedBy, h.db]

/-- `runCreate` against a remote primary is a run of the call: it ends with the same response
and the same store, and then the same slaves are called. -/
theorem runCreate_reaches (hring : ∀ i, ∃ slaves, env.ring i = p :: slaves) (hp : p.rpcEndpoint ≠ env.self)
    {stores : String → Db} {w' : World} {resp : Response} (h : env.runCreate req stores = some (w', resp)) :
    ∃ t k w₁, Reaches (step env.hash32 req) (fun _ _ => True) (initial (stores p.rpcEndpoint)) t ∧
      t.phase = .returned resp ∧ t.db = w₁.stores p.rpcEndpoint ∧
      w' = Env.callEach (env.clientCreate req) k 1 (env.schedule t.told) w₁ :=
  createLoop_reaches hring hp ⟨rfl, rfl, rfl, rfl, rfl, fun _ _ => rfl, rfl, rfl⟩ h

end Simulation

end CreateCall

end Tarantula
