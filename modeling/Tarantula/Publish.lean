import Tarantula.Addressing
import Tarantula.ConsistentHashing

/-! Publishing events and listing them. An event is stored by the token of its own key, on
the replicas of this token; a list reads one node, the owner of the token of the name of
the topic. -/

namespace Tarantula

/-- A topic with its event. `body` is what is marshalled beside the key. -/
structure Topic where
  name : String
  key : Bytes
  header : Header
  body : Bytes
  deriving DecidableEq, Repr

/-- The class that a query asks for, with its bounds, which only count down. -/
structure Query where
  topic : String
  factoryId : UInt32
  classId : UInt32
  limit : Int
  offset : Int

namespace LocalData

/-- The loop of `query` over the rows of the class. -/
def queryLoop (filter : Bytes → Bytes → Bool) :
    List (Bytes × Bytes) → Int → Int → List (Bytes × Bytes) → List (Bytes × Bytes)
  | [], _, _, dset => dset
  | (key, val) :: rows, offset, limit, dset =>
    if 0 < offset then queryLoop filter rows (offset - 1) limit dset
    else
      let k := key.drop 12
      if filter k val then
        if limit - 1 = 0 then dset ++ [(k, val)]
        else queryLoop filter rows offset (limit - 1) (dset ++ [(k, val)])
      else if limit = 0 then dset
      else queryLoop filter rows offset limit dset

def classRows (db : Db) (factoryId classId : UInt32) : List (Bytes × Bytes) :=
  db.toList.filter fun row => (beBytes 4 factoryId.toNat ++ beBytes 4 classId.toNat).isPrefixOf row.1

def queryLimit (q : Query) : Int := if q.limit ≤ 0 then 10 else q.limit

def query (db : Db) (filter : Bytes → Bytes → Bool) (q : Query) : List (Bytes × Bytes) :=
  queryLoop filter (classRows db q.factoryId q.classId) q.offset (queryLimit q) []

end LocalData

namespace Topic

section Publish

variable (registered : String → Bool) (marshal : Topic → Option Bytes) (hash32 : Bytes → UInt32)

/-- The record of the event, where it has a key and can be marshalled. -/
def data (topic : Topic) : Option Data :=
  if topic.key.length = 0 then none
  else (marshal topic).map fun value => ⟨topic.key, value, topic.header⟩

def stamped (topic : Topic) (now : UInt64) : Topic :=
  { topic with header := { topic.header with timestamp := now } }

def replicas (m : NodeRing) (key : Bytes) : List Node := (m.keyRing (hash32 key) replicaMax).getD []

/-- The stores after a publish, and whether it is acknowledged. `env` has the fate of the
calls. What the subscribers are sent is left out. -/
def runPublish (m : NodeRing) (env : Env) (now : UInt64) (topic : Topic) (stores : String → Db) :
    Option ((String → Db) × Bool) :=
  if !registered topic.name then some (stores, false)
  else
    match (topic.stamped now).data marshal with
    | none => some (stores, false)
    | some data =>
      let env := { env with hash32 := hash32, ring := fun _ => replicas hash32 m topic.key }
      (env.runCreate ⟨hash32 topic.key, data⟩ stores).map fun (w, resp) => (w.stores, resp.successful)

end Publish

theorem data_eq {marshal : Topic → Option Bytes} {topic : Topic} {d : Data}
    (h : topic.data marshal = some d) : d.key = topic.key ∧ d.header = topic.header := by
  unfold data at h
  split at h
  · cases h
  · obtain ⟨value, -, rfl⟩ := Option.map_eq_some_iff.mp h
    exact ⟨rfl, rfl⟩

end Topic

/-- The first replica of the name of the topic is asked. `none` where the ring is empty. -/
def runQuery (hash32 : Bytes → UInt32) (m : NodeRing) (filter : Bytes → Bytes → Bool) (q : Query)
    (stores : String → Db) : Option (List (Bytes × Bytes)) :=
  (m.keyRing (hash32 (utf8 q.topic)) replicaMax).bind fun nodes =>
    nodes.head?.map fun ringNode => LocalData.query (stores ringNode.rpcEndpoint) filter q

namespace Env

variable {env : Env} {req : Request} {I : World → Prop}

theorem callEach_invariant {call : Call} {i j : Nat} {nodes : List Node} {w : World}
    (hcall : ∀ j w, ∀ n ∈ nodes, I w → I (call i j n w).1) (h : I w) : I (callEach call i j nodes w) := by
  induction nodes generalizing j w with
  | nil => exact h
  | cons n nodes ih =>
    exact ih (fun j w n hn => hcall j w n (List.mem_cons_of_mem _ hn))
      (hcall j w n (List.mem_cons_self ..) h)

theorem createLoop_invariant (hcall : ∀ i j w, ∀ n ∈ env.ring i, I w → I (env.clientCreate req i j n w).1)
    {reties i : Nat} {err : Option Fail} {w w' : World} {resp : Response} (hw : I w)
    (h : env.createLoop req reties i err w = some (w', resp)) : I w' := by
  induction reties generalizing i err w with
  | zero =>
    cases h
    exact hw
  | succ reties ih =>
    rw [createLoop] at h
    cases hring : env.ring i with
    | nil => simp [hring] at h
    | cons p slaves =>
      rw [hring] at h
      dsimp only at h
      have hp := hcall i 0 w p (by rw [hring]; exact List.mem_cons_self ..) hw
      generalize env.clientCreate req i 0 p w = r at h hp
      obtain ⟨w₁, resp₁, err₁⟩ := r
      cases err₁ with
      | some e => exact ih hp h
      | none =>
        cases resp₁ with
        | none => cases h
        | some resp₁ =>
          dsimp only at h
          split at h
          · cases h
            refine callEach_invariant (fun j w n hn hw => hcall i j w n ?_ hw) hp
            rw [hring]
            exact List.mem_cons_of_mem _ ((env.schedule_perm slaves).mem_iff.mp hn)
          · exact ih hp h

theorem clientCreate_cases (env : Env) (req : Request) (i j : Nat) (n : Node) (w : World) :
    (env.clientCreate req i j n w).1 = w ∨
      ∃ now,
        let d := LocalData.create (w.stores n.rpcEndpoint) now
          (DataService.stored env.hash32 (req.withHeader w.header));
        let w' := (env.clientCreate req i j n w).1;
        (w'.header = w.header ∨ w'.header = d.header) ∧
          ∀ e, w'.stores e = if e = n.rpcEndpoint then d.db else w.stores e := by
  unfold clientCreate client
  split
  · next hself =>
    refine .inr ⟨env.clock i j, .inr (by rw [hself]; rfl), fun e => ?_⟩
    rw [hself]
    exact Function.update_apply ..
  · unfold remote
    cases env.link i j with
    | noConn => exact .inl rfl
    | requestLost => exact .inl rfl
    | replyLost => exact .inr ⟨env.clock i j, .inl rfl, fun e => Function.update_apply ..⟩
    | up => exact .inr ⟨env.clock i j, .inl rfl, fun e => Function.update_apply ..⟩

end Env

/-- A store that events are written to: all index rows are live and stand under the token
of their key, and a data row has an index row. -/
structure Archive (hash32 : Bytes → UInt32) (db : Db) : Prop where
  index : ∀ (a : Address) v, db[a.index]? = some v →
    a.ringPrefix = hash32 a.key ∧ ∃ d, v = rowBytes d ∧ d.state ≠ dataStateDeleted
  data : ∀ (a : Address) rev v, a.Fits → a.ringPrefix = hash32 a.key → db[a.data rev]? = some v →
    db[a.index]? ≠ none

namespace Archive

variable {hash32 : Bytes → UInt32} {db : Db} (now : UInt64) (sd : SetData)

theorem empty : Archive hash32 ∅ := by
  refine ⟨fun a v h => ?_, fun a rev v _ _ h => ?_⟩ <;> simp at h

theorem create_cases (ha : Archive hash32 db) :
    (LocalData.create db now sd).db = db ∨
      db[sd.address.index]? = none ∧ Write.Rewrites sd.address (LocalData.fresh now sd)
        (some sd.data.value) db (LocalData.create db now sd).db := by
  rcases (LocalData.create_outcome now db).1 with ⟨-, hdb⟩ | ⟨hok, -, -⟩
  · exact .inl hdb
  · refine .inr ⟨?_, ?_⟩
    · cases hrow : db[sd.address.index]? with
      | none => rfl
      | some v =>
        obtain ⟨-, d, rfl, hlive⟩ := ha.index _ v hrow
        have hv : Holds sd.address db (some (sd.address.version db d)) := ⟨d, hrow, rfl⟩
        exact absurd (((LocalData.create_ok_iff now hv).mp hok).2 _ rfl) hlive
    · exact Write.create_rewrites hok

theorem create_header (ha : Archive hash32 db) (hst : sd.data.header.state ≠ dataStateDeleted) :
    (LocalData.create db now sd).header.state ≠ dataStateDeleted := by
  by_cases hf : sd.address.Fits
  · cases hrow : db[sd.address.index]? with
    | none =>
      rw [(LocalData.create_header_none now hf hrow).1]
      exact hst
    | some v =>
      obtain ⟨-, d, rfl, hlive⟩ := ha.index _ v hrow
      have hv : Holds sd.address db (some (sd.address.version db d)) := ⟨d, hrow, rfl⟩
      rw [(LocalData.create_header_some now hf hv).1]
      exact hlive
  · simp only [LocalData.create, LocalData.pair_fresh_none now hf]
    exact hst

variable (hp : sd.address.ringPrefix = hash32 sd.address.key)

include hp

theorem create_keeps (ha : Archive hash32 db) {k v : Bytes} (hk : db[k]? = some v) :
    (LocalData.create db now sd).db[k]? = some v := by
  rcases ha.create_cases now sd with hdb | ⟨hnone, hr⟩
  · rw [hdb, hk]
  · rw [hr.get]
    by_cases hdata : sd.address.data 1 = k
    · exact absurd hnone (ha.data _ 1 v hr.fits hp (hdata ▸ hk))
    · have hindex : sd.address.index ≠ k := by
        intro he
        rw [he, hk] at hnone
        cases hnone
      have hdata' : sd.address.data (LocalData.fresh now sd).revision ≠ k := hdata
      rw [if_neg hdata', if_neg hindex, hk]

theorem create (ha : Archive hash32 db) (hst : sd.data.header.state ≠ dataStateDeleted) :
    Archive hash32 (LocalData.create db now sd).db := by
  rcases ha.create_cases now sd with hdb | ⟨hnone, hr⟩
  · rw [hdb]
    exact ha
  · refine ⟨fun a v hk => ?_, fun a rev v hf hpre hk => ?_⟩
    · rw [hr.index] at hk
      split at hk
      · next he =>
        exact he ▸ ⟨hp, _, (Option.some.inj hk).symm, hst⟩
      · exact ha.index a v hk
    · rw [hr.index]
      split
      · simp
      · next hne =>
        rw [hr.data_other hf
          (fun _ _ he => hne (Address.eq_of_data (p := fun _ _ key => hash32 key) hp hpre he))] at hk
        exact ha.data a rev v hf hpre hk

end Archive

namespace Env

variable {env : Env} {req : Request}

theorem createLoop_failed (hcall : ∀ i j n w, (env.clientCreate req i j n w).2.err ≠ none)
    {reties i : Nat} {err : Option Fail} {w w' : World} {resp : Response}
    (h : env.createLoop req reties i err w = some (w', resp)) : resp.successful = false := by
  induction reties generalizing i err w with
  | zero =>
    cases h
    rfl
  | succ reties ih =>
    rw [createLoop] at h
    cases hring : env.ring i with
    | nil => simp [hring] at h
    | cons p slaves =>
      rw [hring] at h
      dsimp only at h
      have hp := hcall i 0 p w
      generalize env.clientCreate req i 0 p w = r at h hp
      obtain ⟨w₁, resp₁, err₁⟩ := r
      cases err₁ with
      | some e => exact ih h
      | none => exact absurd rfl hp

theorem clientCreate_unfit (hf : ¬ req.address.Fits) (i j : Nat) (n : Node) (w : World) :
    (env.clientCreate req i j n w).2.err ≠ none := by
  have herr : ∀ db now, (DataService.create env.hash32 db now
    (req.withHeader w.header)).reply.err ≠ none := by
    intro db now he
    have hfits := (DataService.create_rewrites he).fits
    exact hf hfits
  unfold clientCreate client
  split
  · exact herr _ _
  · unfold remote
    cases env.link i j with
    | noConn => simp
    | requestLost => simp
    | replyLost => simp
    | up =>
      have h := herr (w.stores n.rpcEndpoint) (env.clock i j)
      dsimp only
      split <;> exact h

end Env

/-- While an event is stored: the stores are archives, each record is only at its replicas,
and nothing that was in the stores is lost. -/
structure Filing (hash32 : Bytes → UInt32) (m : NodeRing) (stores : String → Db) (ids : Header)
    (w : World) : Prop where
  ids : w.header.SameIds ids
  state : w.header.state ≠ dataStateDeleted
  archive : ∀ e, Archive hash32 (w.stores e)
  placed : ∀ e (a : Address), (w.stores e)[a.index]? ≠ none →
    e ∈ (Topic.replicas hash32 m a.key).map (·.rpcEndpoint)
  keeps : ∀ e (k v : Bytes), (stores e)[k]? = some v → (w.stores e)[k]? = some v

theorem Filing.call {hash32 : Bytes → UInt32} {m : NodeRing} {stores : String → Db} (env : Env)
    (req : Request) {w : World} (h : Filing hash32 m stores req.data.header w) (he : env.hash32 = hash32)
    (hp : req.ringPrefix = hash32 req.data.key) {n : Node} (hn : n ∈ Topic.replicas hash32 m req.data.key)
    (i j : Nat) : Filing hash32 m stores req.data.header (env.clientCreate req i j n w).1 := by
  rcases env.clientCreate_cases req i j n w with hw | ⟨now, hheader, hstores⟩
  · rw [hw]
    exact h
  · set sd := DataService.stored env.hash32 (req.withHeader w.header)
    have hpre : sd.address.ringPrefix = hash32 sd.address.key := by
      show DataService.ringPrefixOf env.hash32 (req.withHeader w.header) = hash32 req.data.key
      unfold DataService.ringPrefixOf
      split
      · rw [he]
        rfl
      · exact hp
    have hst : sd.data.header.state ≠ dataStateDeleted := h.state
    have ha := h.archive n.rpcEndpoint
    refine ⟨?_, ?_, fun e => ?_, fun e a hrow => ?_, fun e k v hk => ?_⟩
    · rcases hheader with hd | hd
      · exact hd ▸ h.ids
      · exact hd ▸ ((LocalData.create_outcome now _).2).trans h.ids
    · rcases hheader with hd | hd
      · exact hd ▸ h.state
      · exact hd ▸ ha.create_header now sd hst
    · rw [hstores]
      split
      · exact ha.create now sd hpre hst
      · exact h.archive e
    · rw [hstores] at hrow
      split at hrow
      · next hen =>
        rcases ha.create_cases now sd with hdb | ⟨-, hr⟩
        · exact hen ▸ h.placed _ a (hdb ▸ hrow)
        · rw [hr.index] at hrow
          split at hrow
          · next hadr =>
            rw [← hadr, hen]
            exact List.mem_map_of_mem hn
          · exact hen ▸ h.placed _ a hrow
      · exact h.placed e a hrow
    · have hk' := h.keeps e k v hk
      rw [hstores]
      split
      · next hen => exact ha.create_keeps now sd hpre (hen ▸ hk')
      · exact hk'

end Tarantula
