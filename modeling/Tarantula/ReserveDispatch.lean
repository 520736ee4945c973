import Tarantula.PickFairness
import Tarantula.Postoffice

/-! The dispatch of an AskReserve: `runAskReserve` asks the goroutine of its postoffice for the next
subscriber up to ten times, between which other requests may change the registry, and waits where
there is none or no connection to it. -/

namespace Tarantula

def reserveRetryMax : Nat := 10

/-- What the loop meets in each attempt: whether the provider still runs, what other requests have done to
the goroutine, whether the pool of an endpoint gives a connection, and the reply, which is `none` for an
error. -/
structure ReserveEnv (ρ : Type) where
  running : Nat → Bool
  between : Nat → Dispatcher → Dispatcher
  range : Nat → RangeOrder
  connects : Nat → String → Bool
  reply : Nat → String → Option ρ

/-- The goroutine at the end, the subscribers that were asked, each with the goroutine as it answered, the
number of waits of 30 seconds, and the response with the transaction as it is left. How long a pool tries
to connect is not counted. -/
structure Reserving (ρ : Type) where
  office : Dispatcher
  asked : List (Dispatcher × Subscription)
  slept : Nat
  answer : Option (ρ × Meta)

namespace ReserveEnv

variable {ρ : Type}

/-- The loop from an attempt on, with the number of attempts that are left. -/
def reserveLoop (env : ReserveEnv ρ) (mt : Meta) : Nat → Nat → Dispatcher → Reserving ρ
  | 0, _, d => ⟨d, [], 0, none⟩
  | left + 1, attempt, d =>
    if !env.running attempt then ⟨d, [], 0, none⟩
    else
      let before := env.between attempt d
      let (d, sub) := before.taskAssign (env.range attempt) "" mt.tag mt.name
      match sub.filter fun sub => env.connects attempt sub.endpoint with
      | none =>
        let r := env.reserveLoop mt left (attempt + 1) d
        { r with slept := if attempt + 1 < reserveRetryMax then r.slept + 1 else r.slept }
      | some sub =>
        let d := d.conn sub.topicKey
        match env.reply attempt sub.endpoint with
        | none =>
          -- the next subscriber is asked at once
          let r := env.reserveLoop mt left (attempt + 1) d
          { r with asked := (before, sub) :: r.asked }
        | some resp => ⟨d, [(before, sub)], 0, some (resp, { mt with nodeId := sub.nodeId })⟩

def runAskReserve (env : ReserveEnv ρ) (mt : Meta) (d : Dispatcher) : Reserving ρ :=
  env.reserveLoop mt reserveRetryMax 0 d

/-- The runs of the loop, by the outcomes of their attempts. -/
inductive Loop (env : ReserveEnv ρ) (mt : Meta) : Nat → Nat → Dispatcher → Reserving ρ → Prop
  | spent {attempt : Nat} {d : Dispatcher} : Loop env mt 0 attempt d ⟨d, [], 0, none⟩
  | stopped {left attempt : Nat} {d : Dispatcher} (h : env.running attempt = false) :
      Loop env mt (left + 1) attempt d ⟨d, [], 0, none⟩
  | waited {left attempt : Nat} {d d' : Dispatcher} {sub : Option Subscription} {r : Reserving ρ}
      (h : (env.between attempt d).taskAssign (env.range attempt) "" mt.tag mt.name = (d', sub))
      (hconn : ∀ s ∈ sub, env.connects attempt s.endpoint = false)
        (hr : Loop env mt left (attempt + 1) d' r) :
      Loop env mt (left + 1) attempt d
        { r with slept := if attempt + 1 < reserveRetryMax then r.slept + 1 else r.slept }
  | failed {left attempt : Nat} {d d' : Dispatcher} {sub : Subscription} {r : Reserving ρ}
      (h : (env.between attempt d).taskAssign (env.range attempt) "" mt.tag mt.name = (d', some sub))
      (hreply : env.reply attempt sub.endpoint = none)
      (hr : Loop env mt left (attempt + 1) (d'.conn sub.topicKey) r) :
      Loop env mt (left + 1) attempt d { r with asked := (env.between attempt d, sub) :: r.asked }
  | answered {left attempt : Nat} {d d' : Dispatcher} {sub : Subscription} {resp : ρ}
      (h : (env.between attempt d).taskAssign (env.range attempt) "" mt.tag mt.name = (d', some sub))
      (hreply : env.reply attempt sub.endpoint = some resp) :
      Loop env mt (left + 1) attempt d
        ⟨d'.conn sub.topicKey, [(env.between attempt d, sub)], 0,
          some (resp, { mt with nodeId := sub.nodeId })⟩

theorem loop_reserveLoop (env : ReserveEnv ρ) (mt : Meta) (left attempt : Nat) (d : Dispatcher) :
    Loop env mt left attempt d (env.reserveLoop mt left attempt d) := by
  induction left generalizing attempt d with
  | zero => exact .spent
  | succ left ih =>
    rw [reserveLoop]
    cases hrun : env.running attempt with
    | false => exact .stopped hrun
    | true =>
      simp only [Bool.not_true, Bool.false_eq_true, if_false]
      cases h : (env.between attempt d).taskAssign (env.range attempt) "" mt.tag mt.name with
      | mk d' sub =>
        dsimp only
        cases hf : sub.filter fun sub => env.connects attempt sub.endpoint with
        | none =>
          refine .waited h (fun s hs => ?_) (ih _ _)
          rw [Option.filter_eq_none_iff] at hf
          simpa using hf s hs
        | some s =>
          obtain ⟨rfl, -⟩ := Option.filter_eq_some_iff.mp hf
          dsimp only
          cases hreply : env.reply attempt s.endpoint with
          | none => exact .failed h hreply (ih _ _)
          | some resp => exact .answered h hreply

section Bounds

variable {env : ReserveEnv ρ} {mt : Meta} {left attempt : Nat} {d : Dispatcher} {r : Reserving ρ}

theorem Loop.bounds (hl : Loop env mt left attempt d r) (h : attempt + left = reserveRetryMax) :
    r.slept + r.asked.length ≤ left ∧ r.slept ≤ left - 1 := by
  induction hl with
  | spent => exact ⟨le_rfl, le_rfl⟩
  | stopped => exact ⟨Nat.zero_le _, Nat.zero_le _⟩
  | waited _ _ _ ih =>
    have hrest := ih (by omega)
    dsimp only
    split <;> omega
  | failed _ _ _ ih =>
    have hrest := ih (by omega)
    dsimp only
    rw [List.length_cons]
    omega
  | answered => exact ⟨Nat.le_add_left 1 _, Nat.zero_le _⟩

def Offered (mt : Meta) (x : Dispatcher × Subscription) : Prop :=
  ∃ b ∈ x.1.subscriptions.subs, b.Matches (transSubPrefix ++ mt.name) mt.tag ∧
    b.endpoint = x.2.endpoint ∧ b.nodeId = x.2.nodeId

theorem taskAssign_pick {d d' : Dispatcher} {range : RangeOrder} {tag name : String}
    {sub : Option Subscription} (h : d.taskAssign range "" tag name = (d', sub)) :
    d'.subscriptions = (d.subscriptions.pick range (transSubPrefix ++ name) tag).1 ∧
      sub = (d.subscriptions.pick range (transSubPrefix ++ name) tag).2 :=
  ⟨congrArg (·.1.subscriptions) h.symm, congrArg (·.2) h.symm⟩

theorem offered_of_taskAssign {d d' : Dispatcher} {range : RangeOrder} {sub : Subscription}
    (h : d.taskAssign range "" mt.tag mt.name = (d', some sub)) : Offered mt (d, sub) := by
  have hsub := (taskAssign_pick h).2
  rcases SubscriptionRegistry.pick_cases range d.subscriptions (transSubPrefix ++ mt.name) mt.tag with
    hp | ⟨x, hx, hp⟩
  · rw [hp] at hsub
    cases hsub
  · rw [hp] at hsub
    obtain rfl := Option.some.inj hsub
    exact SubscriptionRegistry.mem_entries d.keyed hx

theorem Loop.offered (hl : Loop env mt left attempt d r) : ∀ x ∈ r.asked, Offered mt x := by
  induction hl with
  | spent | stopped => simp
  | waited _ _ _ ih => exact ih
  | failed h _ _ ih => exact List.forall_mem_cons.mpr ⟨offered_of_taskAssign h, ih⟩
  | answered h => exact List.forall_mem_singleton.mpr (offered_of_taskAssign h)

theorem Loop.answer {resp : ρ} {mt' : Meta} (hl : Loop env mt left attempt d r)
    (h : r.answer = some (resp, mt')) :
    ∃ i x, r.asked.getLast? = some x ∧ env.reply i x.2.endpoint = some resp ∧
      mt' = { mt with nodeId := x.2.nodeId } := by
  induction hl with
  | spent | stopped => cases h
  | waited _ _ _ ih => exact ih h
  | failed _ _ _ ih =>
    obtain ⟨i, x, hlast, hreply, hmt⟩ := ih h
    refine ⟨i, x, ?_, hreply, hmt⟩
    rw [List.getLast?_cons, hlast]
    rfl
  | answered _ hreply =>
    obtain ⟨rfl, rfl⟩ := Prod.mk.inj (Option.some.inj h)
    exact ⟨_, _, rfl, hreply, rfl⟩

end Bounds

section Quiet

variable {env : ReserveEnv ρ} {mt : Meta} {left attempt : Nat} {d : Dispatcher} {r : Reserving ρ}

/-- Between the attempts nobody subscribes or leaves, and nobody else is assigned a subscriber for the
name and the tag. -/
def Quiet (env : ReserveEnv ρ) (mt : Meta) : Prop :=
  ∀ i d, (env.between i d).subscriptions.topicEnds = d.subscriptions.topicEnds ∧
    (env.between i d).subscriptions.roundIdx.getD (transSubPrefix ++ mt.name ++ "#" ++ mt.tag) 0 =
      d.subscriptions.roundIdx.getD (transSubPrefix ++ mt.name ++ "#" ++ mt.tag) 0

/-- The endpoint is connected and replies whenever it is asked. -/
def Reachable (env : ReserveEnv ρ) (e : String) : Prop :=
  ∀ i, env.connects i e = true ∧ (env.reply i e).isSome = true

def pool (mt : Meta) (d : Dispatcher) : List String := d.subscriptions.ring (transSubPrefix ++ mt.name) mt.tag

def counter (mt : Meta) (d : Dispatcher) : Nat :=
  d.subscriptions.roundIdx.getD (transSubPrefix ++ mt.name ++ "#" ++ mt.tag) 0

theorem pool_congr {d d' : Dispatcher} (h : d'.subscriptions.topicEnds = d.subscriptions.topicEnds) :
    pool mt d' = pool mt d := by
  simp only [pool, SubscriptionRegistry.ring, SubscriptionRegistry.endpoints, SubscriptionRegistry.subs, h]

theorem taskAssign_turn {d d' : Dispatcher} {range : RangeOrder} {sub : Option Subscription} {e : String}
    (h : d.taskAssign range "" mt.tag mt.name = (d', sub))
    (he : (pool mt d)[counter mt d % (pool mt d).length]? = some e) :
    ∃ s, sub = some s ∧ s.endpoint = e ∧ pool mt d' = pool mt d ∧ counter mt d' = counter mt d + 1 := by
  obtain ⟨hsubs, hsub⟩ := taskAssign_pick h
  have hend := (SubscriptionRegistry.endpoint_pick d.keyed range (transSubPrefix ++ mt.name) mt.tag).trans he
  rw [← hsub] at hend
  obtain ⟨s, rfl, rfl⟩ := Option.map_eq_some_iff.mp hend
  rcases SubscriptionRegistry.pick_cases range d.subscriptions (transSubPrefix ++ mt.name) mt.tag with
    hp | ⟨x, -, hp⟩
  · rw [hp] at hsub
    cases hsub
  · rw [hp] at hsubs
    refine ⟨s, rfl, rfl, pool_congr ?_, ?_⟩
    · rw [hsubs]
    · simp [counter, hsubs]

/-- The endpoint `e` stands `j` turns after the counter. -/
def Due (mt : Meta) (e : String) (j : Nat) (d : Dispatcher) : Prop :=
  (pool mt d)[(counter mt d + j) % (pool mt d).length]? = some e

/-- An attempt in a quiet registry asks the endpoint that is due, or `e` is one turn nearer afterwards. -/
theorem Due.turn {e : String} {j i : Nat} {d d' : Dispatcher} {range : RangeOrder} {sub : Option Subscription}
    (hdue : Due mt e j d) (hquiet : env.Quiet mt)
    (h : (env.between i d).taskAssign range "" mt.tag mt.name = (d', sub)) :
    ∃ s, sub = some s ∧ (j = 0 ∧ s.endpoint = e ∨ ∃ j', j = j' + 1 ∧ Due mt e j' d') := by
  have hpool : pool mt (env.between i d) = pool mt d := pool_congr (hquiet i d).1
  have hcounter : counter mt (env.between i d) = counter mt d := (hquiet i d).2
  have hpos : 0 < (pool mt d).length := lt_of_le_of_lt (Nat.zero_le _) (List.getElem?_eq_some_iff.mp hdue).1
  obtain ⟨e₀, he₀⟩ : ∃ e₀, (pool mt d)[counter mt d % (pool mt d).length]? = some e₀ :=
    ⟨_, List.getElem?_eq_getElem (Nat.mod_lt _ hpos)⟩
  have hturn := he₀
  rw [← hpool, ← hcounter] at hturn
  obtain ⟨s, rfl, hs, hpool', hcounter'⟩ := taskAssign_turn h hturn
  refine ⟨s, rfl, ?_⟩
  cases j with
  | zero =>
    rw [Due, Nat.add_zero, he₀] at hdue
    exact .inl ⟨rfl, hs.trans (Option.some.inj hdue)⟩
  | succ j =>
    refine .inr ⟨j, rfl, ?_⟩
    rw [Due, hpool', hpool, hcounter', hcounter, Nat.add_right_comm]
    exact hdue

/-- The loop gets an answer no later than from the reachable endpoint that is due after `j` turns. -/
theorem Loop.reaches (hl : Loop env mt left attempt d r) (hquiet : env.Quiet mt)
    (hrun : ∀ i, env.running i = true) {e : String} (hreach : env.Reachable e) {j : Nat} (hj : j < left)
    (hdue : Due mt e j d) : r.answer.isSome = true ∧ r.slept + r.asked.length ≤ j + 1 := by
  induction hl generalizing j with
  | spent => omega
  | stopped h =>
    rw [hrun] at h
    cases h
  | @waited _ attempt _ _ _ _ h hconn _ ih =>
    obtain ⟨s, rfl, ⟨-, rfl⟩ | ⟨j, rfl, hnext⟩⟩ := hdue.turn hquiet h
    · have hup := (hreach attempt).1
      rw [hconn s rfl] at hup
      cases hup
    · obtain ⟨hanswer, hcost⟩ := ih (Nat.lt_of_succ_lt_succ hj) hnext
      refine ⟨hanswer, ?_⟩
      dsimp only
      split <;> omega
  | @failed _ attempt _ d' sub _ h hreply _ ih =>
    obtain ⟨s, hsub, hs⟩ := hdue.turn hquiet h
    obtain rfl := Option.some.inj hsub
    rcases hs with ⟨-, rfl⟩ | ⟨j, rfl, hnext⟩
    · have hup := (hreach attempt).2
      rw [hreply] at hup
      cases hup
    · have hconn : pool mt (d'.conn sub.topicKey) = pool mt d' := pool_congr rfl
      have hnext' : Due mt e j (d'.conn sub.topicKey) := by
        rw [Due, hconn]
        exact hnext
      obtain ⟨hanswer, hcost⟩ := ih (Nat.lt_of_succ_lt_succ hj) hnext'
      refine ⟨hanswer, ?_⟩
      dsimp only
      rw [List.length_cons]
      omega
  | answered => exact ⟨rfl, by simp⟩

theorem exists_due {d : Dispatcher} {e : String} (he : e ∈ pool mt d) :
    ∃ j < (pool mt d).length, Due mt e j d := by
  have hturns := (RoundRobin.turns_perm (pool mt d) (counter mt d)).mem_iff.mpr (List.mem_map_of_mem he)
  obtain ⟨i, hi, hie⟩ := List.mem_map.mp hturns
  obtain ⟨j, hj, rfl⟩ := List.mem_range'.mp hi
  exact ⟨j, hj, by simpa [Due] using hie⟩

end Quiet

/-- A reserve makes at most ten attempts and waits at most nine times. Its own waits and the timeouts of ten
seconds of its calls are at most 280 seconds, to which comes what its pools take to connect. It asks only
nodes that have subscribed for the name and the tag, stops at the first reply and notes its node. Where the
registry is quiet and one of at most ten endpoints can be reached, there is a reply, after no more attempts
than there are endpoints. -/
theorem reserve_dispatch (env : ReserveEnv ρ) (mt : Meta) (d : Dispatcher) :
    ((env.runAskReserve mt d).slept + (env.runAskReserve mt d).asked.length ≤ 10 ∧
      30 * (env.runAskReserve mt d).slept + 10 * (env.runAskReserve mt d).asked.length ≤ 280) ∧
    (∀ x ∈ (env.runAskReserve mt d).asked, Offered mt x) ∧
    (∀ resp mt', (env.runAskReserve mt d).answer = some (resp, mt') →
      ∃ i x, (env.runAskReserve mt d).asked.getLast? = some x ∧ env.reply i x.2.endpoint = some resp ∧
        mt' = { mt with nodeId := x.2.nodeId }) ∧
    (env.Quiet mt → (∀ i, env.running i = true) →
      (d.subscriptions.endpoints (transSubPrefix ++ mt.name) mt.tag).length ≤ reserveRetryMax →
      (∃ e ∈ d.subscriptions.endpoints (transSubPrefix ++ mt.name) mt.tag, env.Reachable e) →
      (env.runAskReserve mt d).answer.isSome = true ∧
        (env.runAskReserve mt d).slept + (env.runAskReserve mt d).asked.length ≤
          (d.subscriptions.endpoints (transSubPrefix ++ mt.name) mt.tag).length) := by
  have hl : Loop env mt reserveRetryMax 0 d (env.runAskReserve mt d) := env.loop_reserveLoop mt _ 0 d
  refine ⟨?_, hl.offered, fun resp mt' h => hl.answer h, fun hquiet hrun hfew hex => ?_⟩
  · have hbounds := hl.bounds (Nat.zero_add reserveRetryMax)
    rw [show reserveRetryMax = 10 from rfl] at hbounds
    omega
  · obtain ⟨e, he, hreach⟩ := hex
    have hperm : (pool mt d).Perm (d.subscriptions.endpoints (transSubPrefix ++ mt.name) mt.tag) :=
      SubscriptionRegistry.ring_perm
    obtain ⟨j, hj, hdue⟩ := exists_due (hperm.mem_iff.mpr he)
    rw [hperm.length_eq] at hj
    obtain ⟨hanswer, hcost⟩ := hl.reaches hquiet hrun hreach (lt_of_lt_of_le hj hfew) hdue
    exact ⟨hanswer, le_trans hcost hj⟩

section Sample

def sampleReserveOffice : Dispatcher :=
  let d := (Dispatcher.start.registerSubscription "c" ⟨transMail, "n1", "dev", "build", "a", false⟩).1
  (d.registerSubscription "c" ⟨transMail, "n2", "dev", "build", "b", false⟩).1

def sampleReserveEnv : ReserveEnv Unit :=
  ⟨fun _ => true, fun _ d => d, fun _ => keyOrder, fun _ _ => true,
    fun _ e => if e = "b" then some () else none⟩

theorem reserve_dispatch_sample :
    sampleReserveEnv.Reachable "b" ∧
      (sampleReserveEnv.runAskReserve { (default : Meta) with tag := "dev", name := "build" }
        sampleReserveOffice).answer.isSome = true := by
  have hreach : sampleReserveEnv.Reachable "b" := fun _ => ⟨rfl, rfl⟩
  refine ⟨hreach, ?_⟩
  have hlive := (reserve_dispatch sampleReserveEnv { (default : Meta) with tag := "dev", name := "build" }
    sampleReserveOffice).2.2.2
  exact (hlive (fun _ _ => ⟨rfl, rfl⟩) (fun _ => rfl) (by decide +kernel)
    ⟨"b", by decide +kernel, hreach⟩).1

end Sample

end ReserveEnv

end Tarantula
